import Pebbles.Exec
import Pebbles.KernelSound
import Pebbles.RefCount

/-!
# What a failed exec leaves behind

`load_task` installs the new directory in the task before the steps that can
still fail, and `do_exec` puts only `%cr3` back. A failed call leaves the task as
it was exactly when it fails before that point.
-/

namespace Pebbles

open Words

namespace Kernel

section
variable {k k' : Kernel} {toc : Toc} {heap : ExecHeap} {eflags argPacket t : Word} {r : Int}

theorem loadTask_cases {name : List Byte} {args : List (List Byte)}
    (h : k.loadTask toc heap eflags name args t = some (r, k')) :
    k'.locks = k.locks ∧ ((k.vm.avail = [] ∧ r = ERR_NOMEM ∧ k' = k) ∨
      ∃ a, k.vm.avail.head? = some a ∧ (k'.task t).pdbr = a) := by
  unfold loadTask at h
  cases hav : k.vm.avail with
  | nil =>
    rw [Vm.createPageDirectory_nil hav] at h
    simp only [Option.some.injEq, Prod.mk.injEq] at h
    obtain ⟨rfl, rfl⟩ := h
    exact ⟨rfl, Or.inl ⟨rfl, rfl, rfl⟩⟩
  | cons a rest =>
    rw [Vm.createPageDirectory_cons (a := a) (by simp [hav])] at h
    dsimp only at h
    split at h
    · cases h
    · rename_i r₁ vm₁ _
      split at h
      · simp only [Option.some.injEq, Prod.mk.injEq] at h
        obtain ⟨rfl, rfl⟩ := h
        exact ⟨rfl, Or.inr ⟨a, rfl, by simp [setTask]⟩⟩
      · split at h
        · cases h
        · rename_i r₂ vm₂ _
          split at h
          · simp only [Option.some.injEq, Prod.mk.injEq] at h
            obtain ⟨rfl, rfl⟩ := h
            exact ⟨rfl, Or.inr ⟨a, rfl, by simp [setTask]⟩⟩
          · split at h
            · cases h
            · simp only [Option.some.injEq, Prod.mk.injEq] at h
              obtain ⟨rfl, rfl⟩ := h
              exact ⟨rfl, Or.inr ⟨a, rfl, by simp [setTask]⟩⟩
            · simp only [Option.some.injEq, Prod.mk.injEq] at h
              obtain ⟨rfl, rfl⟩ := h
              exact ⟨rfl, Or.inr ⟨a, rfl, by simp [setTask, setThread]⟩⟩

theorem doExec_fails (h : k.doExec toc heap eflags argPacket = some (r, k')) (hr : r < 0) :
    (k.vm.execArgs toc heap argPacket = some (.error r) ∧ k' = k) ∨
      ∃ x, k.vm.execArgs toc heap argPacket = some (.ok x) ∧ ((k.vm.avail = [] ∧ k' = k) ∨
        ∃ a, k.vm.avail.head? = some a ∧ (k'.task k.currTask).pdbr = a) := by
  unfold doExec at h
  simp only [Option.bind_eq_bind, Option.bind_eq_some_iff] at h
  obtain ⟨k₁, hlock, x, hargs, h⟩ := h
  obtain ⟨hv, rfl⟩ := mutexLock_some hlock
  cases x with
  | error e =>
    simp only [Option.bind_eq_some_iff] at h
    obtain ⟨k₂, hun, h⟩ := h
    have he := mutexUnlock_some hun
    simp only [Option.pure_def, Option.some.injEq, Prod.mk.injEq] at h
    obtain ⟨rfl, rfl⟩ := h
    refine Or.inl ⟨hargs, ?_⟩
    rw [he, unlock_lock hv]
  | ok x =>
    right
    refine ⟨x, hargs, ?_⟩
    simp only [Option.bind_eq_some_iff] at h
    obtain ⟨⟨r₁, k₂⟩, hload, h⟩ := h
    obtain ⟨hlk, hcase⟩ := loadTask_cases hload
    dsimp only at h
    split at h
    · simp only [Option.bind_eq_some_iff] at h
      obtain ⟨k₃, hun, h⟩ := h
      have he := mutexUnlock_some hun
      simp only [Option.pure_def, Option.some.injEq, Prod.mk.injEq] at h
      obtain ⟨rfl, rfl⟩ := h
      cases hcase with
      | inl hc =>
        left
        obtain ⟨hav, -, rfl⟩ := hc
        refine ⟨hav, ?_⟩
        rw [he]
        exact unlock_lock hv
      | inr hc =>
        right
        obtain ⟨a, ha, hpd⟩ := hc
        exact ⟨a, ha, by rw [he]; exact hpd⟩
    · simp only [Option.bind_eq_some_iff] at h
      obtain ⟨k₃, -, h⟩ := h
      simp only [Option.pure_def, Option.some.injEq, Prod.mk.injEq] at h
      omega

end

structure OnOwnDirectory (k : Kernel) : Prop where
  inv : k.vm.Inv
  live : k.vm.cr3 ∈ k.vm.pds
  pdbr : (k.task k.currTask).pdbr = k.vm.cr3

structure TaskUnchanged (k k' : Kernel) : Prop where
  pdbr : (k'.task k.currTask).pdbr = k.vm.cr3
  cr3 : k'.vm.cr3 = k.vm.cr3
  pds : k'.vm.pds = k.vm.pds
  dirs : ∀ pd ∈ k.vm.pds, k'.vm.kmem pd = k.vm.kmem pd
  entries : ∀ pd ∈ k.vm.pds, ∀ i j, k'.vm.entry pd i j = k.vm.entry pd i j
  counts : k'.vm.fr.frameRefCount = k.vm.fr.frameRefCount
  free : ∀ f, OnFreeList k'.vm.fr f ↔ OnFreeList k.vm.fr f
  frame : (k'.thread k.currThread).kStack = (k.thread k.currThread).kStack
  mutex : k'.locks (.execMutex k.currTask) = .valid

theorem doExec_locked {k : Kernel} {toc : Toc} {heap : ExecHeap} {eflags argPacket : Word} {x : Int × Kernel}
    (h : k.doExec toc heap eflags argPacket = some x) : k.locks (.execMutex k.currTask) = .valid := by
  unfold doExec at h
  simp only [Option.bind_eq_bind, Option.bind_eq_some_iff] at h
  obtain ⟨k₁, hlock, -⟩ := h
  exact (mutexLock_some hlock).1

/-- A failed exec leaves the task as it was exactly when its arguments are
refused or there is no page for a directory. -/
theorem failed_exec_unchanged_iff {k k' : Kernel} {toc : Toc} {heap : ExecHeap} {eflags argPacket : Word} {r : Int}
    (hk : OnOwnDirectory k) (h : k.doExec toc heap eflags argPacket = some (r, k')) (hr : r < 0) :
    TaskUnchanged k k' ↔ (∃ e, k.vm.execArgs toc heap argPacket = some (.error e)) ∨ k.vm.avail = [] := by
  have hsame : k' = k → TaskUnchanged k k' := by
    rintro rfl
    exact ⟨hk.pdbr, rfl, rfl, fun _ _ => rfl, fun _ _ _ _ => rfl, rfl, fun _ => Iff.rfl, rfl, doExec_locked h⟩
  cases doExec_fails h hr with
  | inl hc => exact ⟨fun _ => Or.inl ⟨r, hc.1⟩, fun _ => hsame hc.2⟩
  | inr hc =>
    obtain ⟨x, hx, hc⟩ := hc
    cases hc with
    | inl hc => exact ⟨fun _ => Or.inr hc.1, fun _ => hsame hc.2⟩
    | inr hc =>
      obtain ⟨a, ha, hpd⟩ := hc
      obtain ⟨use, ho⟩ := hk.inv.owned
      constructor
      · intro hu
        -- the new directory is not the one the task ran on
        have hfresh := (ho.fresh (List.mem_of_mem_head? ha)).2.2.1
        rw [← hpd, hu.pdbr] at hfresh
        exact absurd hk.live hfresh
      · rintro (⟨e, he⟩ | he)
        · rw [hx] at he
          simp at he
        · simp [he] at ha

def packetPage (o : Offset) : Byte :=
  [0x10#8, 0x00#8, 0x00#8, 0x01#8, 0x20#8, 0x00#8, 0x00#8, 0x01#8, 0#8, 0#8, 0#8, 0#8, 0#8, 0#8, 0#8, 0#8,
  0x61#8].getD o 0#8

def smallKernel : Kernel := loneKernel { Vm.mappedVm with umem := fun _ => packetPage } 0x5000#32

theorem smallKernel_ready : OnOwnDirectory smallKernel := by
  have hinv : MemInv ∅ Vm.mappedVm.toTables Vm.mappedVm.fr := Vm.reach_inv Vm.mappedVm_reach
  exact ⟨hinv, by decide +kernel, by decide +kernel⟩

def fullHeap : ExecHeap := ⟨true, fun _ => true, true, ⟨some fun _ => 0#8, some fun _ => 0#8, some fun _ => 0#8⟩, true⟩

def headerOnly : Toc :=
  [⟨[0x61#8], fun i => [0x7f#8, 0x45#8, 0x4c#8, 0x46#8, 0#8, 0#8, 0#8, 0#8, 0#8, 0#8, 0#8, 0#8, 0#8, 0#8, 0#8, 0#8,
    2#8, 0#8, 3#8, 0#8, 1#8].getD i 0#8, 52⟩]

theorem doExec_absent : ∃ k', smallKernel.doExec [] fullHeap 0#32 0x01000000#32 = some (ERR_FAILURE, k') := by
  have h : (smallKernel.doExec [] fullHeap 0#32 0x01000000#32).map Prod.fst = some ERR_FAILURE := by decide +kernel
  obtain ⟨⟨r, k'⟩, hx, rfl⟩ := Option.map_eq_some_iff.mp h
  exact ⟨k', hx⟩

theorem failed_exec_unchanged_absent : ∃ k', smallKernel.doExec [] fullHeap 0#32 0x01000000#32 = some (ERR_FAILURE,
    k') ∧
    TaskUnchanged smallKernel k' := by
  obtain ⟨k', h⟩ := doExec_absent
  refine ⟨k', h, (failed_exec_unchanged_iff smallKernel_ready h (by decide)).mpr (Or.inl ⟨ERR_FAILURE, ?_⟩)⟩
  decide +kernel

/-- The stack of the new program does not fit into memory: the call fails with
`ERR_NOMEM` and the task keeps the new directory, which is not the one in `%cr3`. -/
theorem failed_exec_keeps_new_directory : ∃ k', OnOwnDirectory smallKernel ∧
    smallKernel.doExec headerOnly fullHeap 0#32 0x01000000#32 = some (ERR_NOMEM, k') ∧
    (k'.task smallKernel.currTask).pdbr ≠ smallKernel.vm.cr3 := by
  have h : (smallKernel.doExec headerOnly fullHeap 0#32 0x01000000#32).map
      (fun x => (x.1, (x.2.task smallKernel.currTask).pdbr)) = some (ERR_NOMEM, 0x7000#32) := by decide +kernel
  obtain ⟨⟨r, k'⟩, hx, he⟩ := Option.map_eq_some_iff.mp h
  obtain ⟨rfl, hpd⟩ := Prod.mk.inj he
  refine ⟨k', smallKernel_ready, hx, ?_⟩
  rw [hpd]
  decide +kernel

end Kernel

end Pebbles
