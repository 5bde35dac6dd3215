import Microx.Memory

/-!
# Microx.Memory.Shared

An assertion about the state the maps of a `Memory` share, which the methods of
the maps keep, survives every probe, load and store of the memory.
-/

namespace Microx

open Hoare

namespace Memory

variable {μ π α : Type}

/-- The assertion holds of what the maps share. -/
def Shares (P : π → Prop) (m : Memory μ π) : Prop := P m.shared

/-- Both ways out of a method of a map keep the assertion. -/
abbrev MethodKeeps (P : π → Prop) (f : Method μ π α) : Prop :=
  Triple (fun s => P s.2) f (fun _ s => P s.2) fun _ s => P s.2

/-- Both ways out of a method of the memory keep the assertion. -/
abbrev SharesThrough (P : π → Prop) (f : EStateM PyExc (Memory μ π) α) : Prop :=
  Triple (Shares P) f (fun _ => Shares P) fun _ => Shares P

/-- Every method of the maps keeps the assertion. -/
structure MapsKeep (μ : Type) {π : Type} [MemoryMap μ π] (P : π → Prop) : Prop where
  loadByte : ∀ addr, MethodKeeps P (MemoryMap.loadByte addr : Method μ π (List Byte))
  loadWord : ∀ addr, MethodKeeps P (MemoryMap.loadWord addr : Method μ π (List Byte))
  loadDword : ∀ addr, MethodKeeps P (MemoryMap.loadDword addr : Method μ π (List Byte))
  loadQword : ∀ addr, MethodKeeps P (MemoryMap.loadQword addr : Method μ π (List Byte))
  loadBytes : ∀ addr n, MethodKeeps P (MemoryMap.loadBytes addr n : Method μ π (List Byte))
  storeByte : ∀ addr data, MethodKeeps P (MemoryMap.storeByte addr data : Method μ π Unit)
  storeWord : ∀ addr data, MethodKeeps P (MemoryMap.storeWord addr data : Method μ π Unit)
  storeDword : ∀ addr data, MethodKeeps P (MemoryMap.storeDword addr data : Method μ π Unit)
  storeQword : ∀ addr data, MethodKeeps P (MemoryMap.storeQword addr data : Method μ π Unit)
  storeBytes : ∀ addr data, MethodKeeps P (MemoryMap.storeBytes addr data : Method μ π Unit)

variable {P : π → Prop}

theorem invoke_shares {f : Method μ π α} (h : MethodKeeps P f) (r : Nat) :
    SharesThrough P (invoke r f) := by
  intro m hm
  have hrun := h (m.objs r, m.shared) hm
  unfold invoke
  cases hf : f (m.objs r, m.shared) with
  | ok a s => rw [hf] at hrun; exact hrun
  | error e s => rw [hf] at hrun; exact hrun

variable [MemoryMap μ π]

theorem findMap_shares (byteAddr : Nat) :
    SharesThrough P (findMap byteAddr : EStateM PyExc (Memory μ π) Nat) := by
  refine Triple.read fun m => Triple.read fun m' => ?_
  split
  · exact Triple.pure fun _ h => h
  · refine Triple.bind (Q := fun _ => Shares P) (fun _ h => h) fun r => ?_
    exact Triple.bind (Triple.update fun _ h => h) fun _ => Triple.pure fun _ h => h

theorem canRead_shares (a : Nat) :
    SharesThrough P (canRead a : EStateM PyExc (Memory μ π) Bool) :=
  Triple.bind (findMap_shares a) fun _ => Triple.read fun _ => Triple.pure fun _ h => h

theorem canWrite_shares (a : Nat) :
    SharesThrough P (canWrite a : EStateM PyExc (Memory μ π) Bool) :=
  Triple.bind (findMap_shares a) fun _ => Triple.read fun _ => Triple.pure fun _ h => h

theorem canExecute_shares (a : Nat) :
    SharesThrough P (canExecute a : EStateM PyExc (Memory μ π) Bool) :=
  Triple.bind (findMap_shares a) fun _ => Triple.read fun _ => Triple.pure fun _ h => h

theorem crossesFrom_shares (r addr k : Nat) :
    ∀ i, SharesThrough P (crossesFrom r addr i k : EStateM PyExc (Memory μ π) Bool) := by
  induction k with
  | zero => exact fun _ => Triple.pure fun _ h => h
  | succ k ih =>
      intro i
      refine Triple.bind (findMap_shares _) fun r' => ?_
      exact Triple.ite (fun _ => Triple.pure fun _ h => h) fun _ => ih (i + 1)

theorem isUnit_shares (addr n : Nat) :
    SharesThrough P (isUnit addr n : EStateM PyExc (Memory μ π) Bool) := by
  refine Triple.ite (fun _ => ?_) fun _ => Triple.pure fun _ h => h
  refine Triple.bind (Q := fun _ => Shares P) ?_ fun _ => Triple.pure fun _ h => h
  exact Triple.bind (findMap_shares addr) fun r => crossesFrom_shares r addr (n - 1) 1

theorem loadEach_shares (h : MapsKeep μ P) (addr k : Nat) :
    ∀ i, SharesThrough P (loadEach addr i k : EStateM PyExc (Memory μ π) (List Byte)) := by
  induction k with
  | zero => exact fun _ => Triple.pure fun _ h => h
  | succ k ih =>
      intro i
      refine Triple.bind (findMap_shares _) fun r => ?_
      refine Triple.bind (invoke_shares (h.loadBytes _ _) r) fun bs => ?_
      split
      · exact Triple.throw fun _ h => h
      · exact Triple.bind (ih (i + 1)) fun _ => Triple.pure fun _ h => h

/-- **A load** keeps the assertion. -/
theorem load_shares (h : MapsKeep μ P) (addr n : Nat) :
    SharesThrough P (load addr n : EStateM PyExc (Memory μ π) (List Byte)) := by
  refine Triple.bind (isUnit_shares addr n) fun unit => Triple.ite (fun _ => ?_) fun _ => ?_
  · refine Triple.bind (findMap_shares addr) fun r => ?_
    refine Triple.ite (fun _ => invoke_shares (h.loadByte addr) r) fun _ => ?_
    refine Triple.ite (fun _ => invoke_shares (h.loadWord addr) r) fun _ => ?_
    refine Triple.ite (fun _ => invoke_shares (h.loadDword addr) r) fun _ => ?_
    exact invoke_shares (h.loadQword addr) r
  · exact loadEach_shares h addr n 0

theorem storeEach_shares (h : MapsKeep μ P) (addr : Nat) (data : List Byte) :
    ∀ i, SharesThrough P (storeEach addr i data : EStateM PyExc (Memory μ π) Unit) := by
  induction data with
  | nil => exact fun _ => Triple.pure fun _ h => h
  | cons b data ih =>
      intro i
      refine Triple.bind (findMap_shares _) fun r => ?_
      exact Triple.bind (invoke_shares (h.storeBytes _ _) r) fun _ => ih (i + 1)

/-- **A store** keeps the assertion. -/
theorem store_shares (h : MapsKeep μ P) (addr : Nat) (data : List Byte) :
    SharesThrough P (store addr data : EStateM PyExc (Memory μ π) Unit) := by
  refine Triple.bind (isUnit_shares addr _) fun unit => Triple.ite (fun _ => ?_) fun _ => ?_
  · refine Triple.bind (findMap_shares addr) fun r => ?_
    refine Triple.ite (fun _ => invoke_shares (h.storeByte addr data) r) fun _ => ?_
    refine Triple.ite (fun _ => invoke_shares (h.storeWord addr data) r) fun _ => ?_
    refine Triple.ite (fun _ => invoke_shares (h.storeDword addr data) r) fun _ => ?_
    exact invoke_shares (h.storeQword addr data) r
  · exact storeEach_shares h addr data 0

end Memory

end Microx
