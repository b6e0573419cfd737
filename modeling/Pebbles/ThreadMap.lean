import Pebbles.Lib.Runs
import Pebbles.ProcessTree

/-!
# The thread map

Threads are created under the next id and are found by it until they are removed
from the map. The map is an array of lists; it is compared with a dictionary.
-/

namespace Pebbles

open Words Ring Kernel

namespace Kernel

def initThreadMap (k : Kernel) : Kernel :=
  (List.range HASHMAP_SIZE.toNat).foldl (fun k (i : Nat) => k.withLinks (initHead (.threadMap i))) k

def kernelThreadsInit (k : Kernel) : Kernel := { k with nextTid := 0#32 }.initThreadMap

end Kernel

/-- `dict` gives the thread that was created with an id and was not removed;
`ids` are the ids that were handed out. -/
structure MapRun where
  kernel : Kernel
  dict : Word → Option Word
  ids : List Word

namespace MapRun

/-- Calls of `create_thread` and `remove_thread_from_map`. A thread that was
removed can be taken out of its task and freed, so that its memory is used again. -/
inductive Step : MapRun → MapRun → Prop
  | create {x task thr k'} : task ∈ x.kernel.tasks → thr ∉ x.kernel.threads →
      createThread task (some thr) x.kernel = some (some thr, k') →
      Step x {
        kernel := k'
        dict := Function.update x.dict (k'.thread thr).id (some thr)
        ids := x.ids ++ [(k'.thread thr).id] }
  | createFails {x task mem k'} : createThread task mem x.kernel = some (none, k') → Step x { x with kernel := k' }
  | remove {x id k'} : 0 ≤ mapIndex id → removeThreadFromMap id x.kernel = some k' →
      Step x { x with kernel := k', dict := Function.update x.dict id none }
  | free {x thr} : thr ∈ x.kernel.threads → x.dict (x.kernel.thread thr).id ≠ some thr →
      Step x { x with kernel := (x.kernel.withLinks (delEntry (.taskThreadLink thr))).threadFreeResources thr }

/-- Tasks have been initialised before `kernel_threads_init`, or there are none. -/
structure Booted (x : MapRun) : Prop where
  kernel : ∃ k : Kernel, x.kernel = k.kernelThreadsInit ∧ k.threads = ∅ ∧ 0#32 ∉ k.tasks ∧
    ∀ t ∈ k.tasks, ∀ h ∈ taskHeads t, IsRing k.links h []
  dict : ∀ id, x.dict id = none
  ids : x.ids = []

def Belongs (x : MapRun) : Node → Node → Prop
  | .threadHead t, .taskThreadLink thr => thr ∈ x.kernel.threads ∧ (x.kernel.thread thr).parentTask = t
  | .threadMap i, .threadMapLink thr =>
    x.dict (x.kernel.thread thr).id = some thr ∧ mapIndex (x.kernel.thread thr).id = i
  | _, _ => False

structure Inv (x : MapRun) : Prop where
  lists : ∃ ls, Rings x.kernel.links (heads x.kernel.tasks) ls ∧
    ∀ h ∈ heads x.kernel.tasks, ∀ n, n ∈ ls h ↔ x.Belongs h n
  zero : 0#32 ∉ x.kernel.tasks
  next : x.kernel.nextTid.toNat = x.ids.length
  bound : x.ids.length < 2 ^ 31
  nodup : x.ids.Nodup
  mem_ids : ∀ id, id ∈ x.ids ↔ 0 < id.toNat ∧ id.toNat ≤ x.ids.length
  owner : ∀ thr ∈ x.kernel.threads, (x.kernel.thread thr).parentTask ∈ x.kernel.tasks
  entry : ∀ id thr, x.dict id = some thr → thr ∈ x.kernel.threads ∧ (x.kernel.thread thr).id = id ∧ id ∈ x.ids

/-! ## Boot -/

section
variable {k : Kernel} {h n : Node} {L : Links Node}

theorem initHead_nil (hr : IsRing L h []) : IsRing (initHead n L) h [] := by
  rw [isRing_nil] at hr ⊢
  by_cases e : h = n <;> simp [initHead, setNext, setPrev, e, hr]

theorem initThreadMap_fold (m : Nat) (k : Kernel) : ∃ L,
    (List.range m).foldl (fun k (i : Nat) => k.withLinks (initHead (.threadMap i))) k = { k with links := L } ∧
      (∀ i : Nat, i < m → IsRing L (.threadMap i) []) ∧ ∀ h, IsRing k.links h [] → IsRing L h [] := by
  induction m with
  | zero => exact ⟨k.links, rfl, fun i hi => absurd hi (Nat.not_lt_zero i), fun h hr => hr⟩
  | succ m ih =>
    obtain ⟨L, he, hbuckets, hold⟩ := ih
    refine ⟨initHead (.threadMap m) L, ?_, ?_, fun h hr => initHead_nil (hold h hr)⟩
    · rw [List.range_succ, List.foldl_append, he]
      rfl
    · intro i hi
      by_cases e : i = m
      · subst e
        exact initHead_ring ..
      · exact initHead_nil (hbuckets i (by omega))

theorem Booted.inv {x : MapRun} (h : Booted x) : Inv x := by
  obtain ⟨⟨k, hk, hthreads, hzero, hheads⟩, hdict, hids⟩ := h
  have hsize : HASHMAP_SIZE = 8192 := by decide
  obtain ⟨L, he, hbuckets, hold⟩ := initThreadMap_fold HASHMAP_SIZE.toNat { k with nextTid := 0#32 }
  have hx : x.kernel = { k with nextTid := 0#32, links := L } := by
    rw [hk, kernelThreadsInit, initThreadMap, he]
  have htasks : x.kernel.tasks = k.tasks := by rw [hx]
  have hth : x.kernel.threads = ∅ := by rw [hx, hthreads]
  have hnext : x.kernel.nextTid = 0#32 := by rw [hx]
  have hlinks : x.kernel.links = L := by rw [hx]
  refine ⟨⟨fun _ => [], ⟨?_, fun _ _ _ _ => List.not_mem_nil⟩, ?_⟩, htasks ▸ hzero, ?_, ?_, ?_, ?_, ?_, ?_⟩
  · intro h hh
    rw [htasks] at hh
    rw [hlinks]
    cases h with
    | threadMap i =>
      obtain ⟨h0, hlt⟩ := hh
      obtain ⟨j, rfl⟩ := Int.eq_ofNat_of_zero_le h0
      exact hbuckets j (by omega)
    | childTaskHead t | deadChildHead t | threadHead t | exitCondVar t =>
      exact hold _ (hheads t hh _ (by simp [taskHeads]))
    | _ => exact hh.elim
  · intro h _ n
    cases h <;> cases n <;> simp [Belongs, hth, hdict]
  · rw [hnext, hids]
    rfl
  · rw [hids]
    decide
  · simp [hids]
  · intro id
    rw [hids, List.length_nil]
    exact iff_of_false List.not_mem_nil (by omega)
  · simp [hth]
  · simp [hdict]

end

/-! ## The calls -/

section
variable {x : MapRun} {id id' thr task : Word} {k' : Kernel} {i : Int}

theorem mapIndex_lt (id : Word) : mapIndex id < HASHMAP_SIZE := Int.tmod_lt_of_pos _ (by decide)

theorem createThread_fails {mem : Option Word} (hk : createThread task mem x.kernel = some (none, k')) : k' = x.kernel := by
  unfold createThread at hk
  split at hk
  · simpa using hk.symm
  · cases mem with
    | none => simpa using hk.symm
    | some thr =>
      dsimp only at hk
      split at hk <;> simp at hk

theorem Inv.bucket (h : Inv x) (hi : 0 ≤ i ∧ i < HASHMAP_SIZE) : ∃ ts : List Word,
    IsRing x.kernel.links (.threadMap i) (ts.map .threadMapLink) ∧
      ∀ thr, thr ∈ ts ↔ x.dict (x.kernel.thread thr).id = some thr ∧ mapIndex (x.kernel.thread thr).id = i := by
  obtain ⟨ls, hr, hm⟩ := h.lists
  have hlinks : ∀ n ∈ ls (.threadMap i), ∃ thr, n = .threadMapLink thr := by
    intro n hn
    have hb := (hm _ hi n).mp hn
    cases n with
    | threadMapLink thr => exact ⟨thr, rfl⟩
    | _ => exact hb.elim
  obtain ⟨ts, hts⟩ := View.exists_map hlinks
  refine ⟨ts, ?_, ?_⟩
  · rw [← hts]
    exact hr.ring _ hi
  · intro thr
    have hb := hm (.threadMap i) hi (.threadMapLink thr)
    rw [hts, List.mem_map_of_injective fun _ _ => Node.threadMapLink.inj] at hb
    exact hb

theorem Inv.getThreadFromId (h : Inv x) (hi : 0 ≤ mapIndex id) : getThreadFromId id x.kernel = some (x.dict id) := by
  obtain ⟨ts, hr, hm⟩ := h.bucket ⟨hi, mapIndex_lt id⟩
  rw [getThreadFromId_eq hr, Option.some.injEq]
  have hfound : ∀ y ∈ ts, (x.kernel.thread y).id = id → x.dict id = some y := by
    intro y hy e
    rw [← e]
    exact ((hm y).mp hy).1
  cases hf : ts.find? fun y => (x.kernel.thread y).id = id with
  | some y =>
    have hid : (x.kernel.thread y).id = id := by simpa using List.find?_some hf
    exact (hfound y (List.mem_of_find?_eq_some hf) hid).symm
  | none =>
    cases hd : x.dict id with
    | none => rfl
    | some thr =>
      -- the thread would be in the bucket
      obtain ⟨-, e, -⟩ := h.entry id thr hd
      have hthr : thr ∈ ts := (hm thr).mpr ⟨e.symm ▸ hd, by rw [e]⟩
      simpa [e] using List.find?_eq_none.mp hf thr hthr

theorem mem_erased {L : Links Node} {H : Set Node} {ls : Node → List Node} {h h' n n' : Node} (hr : Rings L H ls) (hh : h ∈ H) :
    n' ∈ Function.update ls h ((ls h).erase n) h' ↔ n' ∈ ls h' ∧ (h' = h → n' ≠ n) := by
  by_cases e : h' = h
  · subst e
    rw [Function.update_self, (List.nodup_cons.mp (hr.ring _ hh).nodup).2.mem_erase_iff]
    simp [and_comm]
  · simp [e]

theorem Inv.remove (h : Inv x) (hi : 0 ≤ mapIndex id) (hk : removeThreadFromMap id x.kernel = some k') :
    Inv { x with kernel := k', dict := Function.update x.dict id none } := by
  unfold removeThreadFromMap at hk
  rw [h.getThreadFromId hi] at hk
  cases hd : x.dict id with
  | none =>
    rw [hd] at hk
    obtain rfl : x.kernel = k' := Option.some.inj hk
    rw [← hd, Function.update_eq_self]
    exact h
  | some thr =>
    rw [hd] at hk
    obtain rfl := Option.some.inj hk
    obtain ⟨hthr, e, -⟩ := h.entry id thr hd
    obtain ⟨ls, hr, hm⟩ := h.lists
    have hh : .threadMap (mapIndex id) ∈ heads x.kernel.tasks := ⟨hi, mapIndex_lt id⟩
    have hn : .threadMapLink thr ∈ ls (.threadMap (mapIndex id)) := (hm _ hh _).mpr ⟨e.symm ▸ hd, by rw [e]⟩
    refine { h with lists := ⟨_, delEntry_rings hr hh hn, ?_⟩, entry := ?_ }
    · intro h' hh' n'
      rw [mem_erased hr hh, hm h' hh']
      cases h' <;> cases n' <;> simp only [Belongs, withLinks, reduceCtorEq, false_and, IsEmpty.forall_iff, and_true, ne_eq,
        Node.threadMap.injEq, Node.threadMapLink.injEq]
      rename_i j y
      by_cases ey : (x.kernel.thread y).id = id
      · -- the dictionary had one thread with the id
        rw [ey, Function.update_self, hd]
        simp only [Option.some.injEq, reduceCtorEq, false_and, iff_false]
        rintro ⟨⟨rfl, ej⟩, hne⟩
        exact hne ej.symm rfl
      · rw [Function.update_of_ne ey]
        refine and_iff_left_of_imp fun _ _ ethr => ey ?_
        rw [ethr, e]
    · intro id' thr' hd'
      by_cases e' : id' = id
      · simp [e'] at hd'
      · simp only [ne_eq, e', not_false_eq_true, Function.update_of_ne] at hd'
        exact h.entry id' thr' hd'

theorem Inv.free (h : Inv x) (hthr : thr ∈ x.kernel.threads) (hd : x.dict (x.kernel.thread thr).id ≠ some thr) :
    Inv { x with kernel := (x.kernel.withLinks (delEntry (.taskThreadLink thr))).threadFreeResources thr } := by
  obtain ⟨ls, hr, hm⟩ := h.lists
  have hh : .threadHead (x.kernel.thread thr).parentTask ∈ heads x.kernel.tasks := h.owner thr hthr
  have hn : .taskThreadLink thr ∈ ls (.threadHead (x.kernel.thread thr).parentTask) := (hm _ hh _).mpr ⟨hthr, rfl⟩
  refine { h with lists := ⟨_, delEntry_rings hr hh hn, ?_⟩, owner := ?_, entry := ?_ }
  · intro h' hh' n'
    rw [mem_erased hr hh, hm h' hh']
    cases h' <;> cases n' <;> simp only [Belongs, withLinks, threadFreeResources, reduceCtorEq, false_and, IsEmpty.forall_iff,
      and_true, ne_eq, Node.threadHead.injEq, Node.taskThreadLink.injEq, Finset.mem_erase]
    rename_i t y
    by_cases e : y = thr
    · subst e
      simp [@eq_comm _ t]
    · simp [e]
  · exact fun y hy => h.owner y (Finset.mem_of_mem_erase hy)
  · intro id' thr' hd'
    obtain ⟨hy, e, hids⟩ := h.entry id' thr' hd'
    refine ⟨Finset.mem_erase.mpr ⟨?_, hy⟩, e, hids⟩
    rintro rfl
    exact hd (e.symm ▸ hd')

theorem Inv.create (h : Inv x) (ht : task ∈ x.kernel.tasks) (hthr : thr ∉ x.kernel.threads)
    (hk : createThread task (some thr) x.kernel = some (some thr, k')) :
    Inv { kernel := k', dict := Function.update x.dict (k'.thread thr).id (some thr), ids := x.ids ++ [(k'.thread thr).id] } := by
  have h0 : task ≠ 0#32 := fun e => h.zero (e ▸ ht)
  obtain ⟨hmax, -, rfl⟩ := createThread_some h0 hk
  obtain ⟨hsucc, hlt⟩ := tid_succ (h.next ▸ h.bound) hmax
  have hid : ((newThread task thr x.kernel).thread thr).id = x.kernel.nextTid + 1#32 := by simp [newThread]
  rw [hid]
  rw [h.next] at hsucc hlt
  have hfresh : x.kernel.nextTid + 1#32 ∉ x.ids := fun hm => by
    have := ((h.mem_ids _).mp hm).2
    omega
  have hnone : ∀ y, x.dict (x.kernel.nextTid + 1#32) ≠ some y := fun y hd => hfresh (h.entry _ y hd).2.2
  have hout : ∀ id, x.dict id ≠ some thr := fun id hd => hthr (h.entry id thr hd).1
  obtain ⟨ls, hr, hm⟩ := h.lists
  have hr' := newThread_rings thr hr ht (hsucc ▸ hlt)
    (fun h' hh' hn => ?_) (fun h' hh' hn => ?_)
  · refine ⟨⟨_, hr', ?_⟩, h.zero, ?_, ?_, ?_, ?_, ?_, ?_⟩
    · intro h' hh' n'
      rw [View.mem_threadLists, hm h' hh']
      cases h' <;> cases n' <;> simp only [Belongs, newThread, reduceCtorEq, false_and, and_false, or_false, false_or,
        Node.threadHead.injEq, Node.taskThreadLink.injEq, Node.threadMap.injEq, Node.threadMapLink.injEq]
      case threadHead.taskThreadLink t y =>
        by_cases e : y = thr
        · subst e
          simp [hthr, @eq_comm _ t]
        · simp [e]
      case threadMap.threadMapLink j y =>
        by_cases e : y = thr
        · subst e
          simp [hout, @eq_comm _ j]
        · by_cases ey : (x.kernel.thread y).id = x.kernel.nextTid + 1#32
          · simp [e, ey, hnone, Ne.symm e]
          · simp [e, ey]
    · simp [newThread, hsucc]
    · rw [List.length_append, List.length_singleton]
      omega
    · refine List.nodup_append.mpr ⟨h.nodup, List.nodup_singleton _, ?_⟩
      intro a ha b hb e
      rw [e, List.mem_singleton.mp hb] at ha
      exact hfresh ha
    · intro id
      rw [List.mem_append, h.mem_ids, List.mem_singleton, List.length_append, List.length_singleton, ← BitVec.toNat_inj, hsucc]
      omega
    · intro y hy
      by_cases e : y = thr
      · simpa [newThread, e] using ht
      · simpa [newThread, e] using h.owner y (by simpa [newThread, e] using hy)
    · intro id y hd
      by_cases e : id = x.kernel.nextTid + 1#32
      · simp only [e, Function.update_self, Option.some.injEq] at hd
        subst hd
        simp [newThread, e]
      · simp only [ne_eq, e, not_false_eq_true, Function.update_of_ne] at hd
        obtain ⟨hy, ey, hids⟩ := h.entry id y hd
        have hne : y ≠ thr := fun e => hthr (e ▸ hy)
        simp [newThread, hne, hy, ey, hids]
  · have hb := (hm h' hh' _).mp hn
    cases h' with
    | threadHead t => exact hthr hb.1
    | _ => exact hb.elim
  · have hb := (hm h' hh' _).mp hn
    cases h' with
    | threadMap j => exact hout _ hb.1
    | _ => exact hb.elim

theorem Inv.step {y : MapRun} (h : Inv x) (hs : Step x y) : Inv y := by
  cases hs with
  | create ht hthr hk => exact h.create ht hthr hk
  | createFails hk => exact createThread_fails hk ▸ h
  | remove hi hk => exact h.remove hi hk
  | free hthr hd => exact h.free hthr hd

/-! ## The map is a dictionary -/

/-- Ids are handed out once; the search finds exactly the threads that were
created and not removed; removing one leaves the others; and every call returns. -/
structure Faithful (x : MapRun) : Prop where
  ids : x.ids.Nodup ∧ ∀ id ∈ x.ids, 0 < id.toInt
  entry : ∀ id thr, x.dict id = some thr → id ∈ x.ids ∧ (x.kernel.thread thr).id = id
  get : ∀ id, 0 ≤ id.toInt → getThreadFromId id x.kernel = some (x.dict id)
  remove : ∀ id, 0 ≤ id.toInt → ∃ k', removeThreadFromMap id x.kernel = some k' ∧
    ∀ id', 0 ≤ id'.toInt → getThreadFromId id' k' = some (if id' = id then none else x.dict id')
  create : x.ids.length < 2 ^ 31 - 1 → ∀ task ∈ x.kernel.tasks, ∀ thr,
    ∃ k', createThread task (some thr) x.kernel = some (some thr, k')
  buckets : ∀ i, 0 ≤ i → i < HASHMAP_SIZE → ∃ ts : List Word,
    IsRing x.kernel.links (.threadMap i) (ts.map .threadMapLink) ∧ ∀ thr, thr ∈ ts ↔ ∃ id, x.dict id = some thr ∧ mapIndex id = i

theorem mapIndex_nonneg (h : 0 ≤ id.toInt) : 0 ≤ mapIndex id := Int.tmod_nonneg _ h

theorem Inv.removes (h : Inv x) (hi : 0 ≤ mapIndex id) : ∃ k', removeThreadFromMap id x.kernel = some k' := by
  unfold removeThreadFromMap
  rw [h.getThreadFromId hi]
  cases x.dict id <;> exact ⟨_, rfl⟩

theorem Inv.faithful (h : Inv x) : Faithful x where
  ids := by
    refine ⟨h.nodup, fun id hm => ?_⟩
    have hid := (h.mem_ids id).mp hm
    rw [BitVec.toInt_eq_toNat_of_lt (by have := h.bound; omega)]
    omega
  entry id thr hd := ⟨(h.entry id thr hd).2.2, (h.entry id thr hd).2.1⟩
  get id hid := h.getThreadFromId (mapIndex_nonneg hid)
  remove id hid := by
    obtain ⟨k', hk⟩ := h.removes (mapIndex_nonneg hid)
    refine ⟨k', hk, fun id' hid' => ?_⟩
    have hget := (h.remove (mapIndex_nonneg hid) hk).getThreadFromId (mapIndex_nonneg hid')
    simpa only [Function.update_apply] using hget
  create hlt task ht thr := by
    refine ⟨_, createThread_eq (fun e => h.zero (e ▸ ht)) fun hmax => ?_⟩
    have hnext := h.next
    rw [hmax, show MAX_TID.toNat = 2 ^ 31 - 1 from rfl] at hnext
    omega
  buckets i h0 hlt := by
    obtain ⟨ts, hr, hm⟩ := h.bucket ⟨h0, hlt⟩
    refine ⟨ts, hr, fun thr => (hm thr).trans ⟨fun hd => ⟨_, hd⟩, ?_⟩⟩
    rintro ⟨id, hd, hi⟩
    rw [(h.entry id thr hd).2.1]
    exact ⟨hd, hi⟩

end

theorem inv_of_reach {x : MapRun} (h : Runs.Reach Booted Step x) : Inv x :=
  h.invariant (P := Inv) (fun _ hb => hb.inv) fun _ _ hi hs => hi.step hs

theorem thread_map_faithful {x : MapRun} (h : Runs.Reach Booted Step x) : Faithful x := (inv_of_reach h).faithful

/-! A run where the thread with id `n` is at the address `n`, in the task at `0x100`. -/

def noThreads : Kernel := { loneKernel Vm.smallBoot 0x5000#32 with threads := ∅, links := ⟨id, id⟩ }

def freshMap : MapRun := ⟨noThreads.kernelThreadsInit, fun _ => none, []⟩

theorem freshMap_reach : Runs.Reach Booted Step freshMap := by
  have hk : freshMap.kernel = noThreads.kernelThreadsInit := by unfold freshMap; dsimp only
  refine .start ⟨⟨noThreads, hk, rfl, by decide, ?_⟩, fun _ => rfl, rfl⟩
  exact fun _ _ _ _ => isRing_nil.mpr ⟨rfl, rfl⟩

structure Filled (n : Nat) (x : MapRun) : Prop where
  reach : Runs.Reach Booted Step x
  length : x.ids.length = n
  task : 0x100#32 ∈ x.kernel.tasks
  threads : ∀ thr ∈ x.kernel.threads, thr.toNat ≤ n
  dict : ∀ id, 0 < id.toNat → id.toNat ≤ n → x.dict id = some id

theorem filled (n : Nat) (hn : n < 2 ^ 31) : ∃ x, Filled n x := by
  induction n with
  | zero =>
    obtain ⟨L, he, -⟩ := initThreadMap_fold HASHMAP_SIZE.toNat { noThreads with nextTid := 0#32 }
    have hx : freshMap.kernel = { noThreads with nextTid := 0#32, links := L } := by
      rw [freshMap, kernelThreadsInit, initThreadMap, he]
    refine ⟨freshMap, freshMap_reach, rfl, ?_, ?_, fun id h0 hle => by omega⟩
    · rw [hx]
      exact (by decide : 0x100#32 ∈ noThreads.tasks)
    · rw [hx]
      exact fun thr hthr => absurd hthr (Finset.notMem_empty thr)
  | succ n ih =>
    obtain ⟨x, hx⟩ := ih (by omega)
    have hi := inv_of_reach hx.reach
    obtain ⟨k', hk⟩ := hi.faithful.create (by rw [hx.length]; omega) _ hx.task (BitVec.ofNat 32 (n + 1))
    have hthr : BitVec.ofNat 32 (n + 1) ∉ x.kernel.threads := by
      intro hm
      have := hx.threads _ hm
      rw [BitVec.toNat_ofNat, Nat.mod_eq_of_lt (by omega)] at this
      omega
    have hstep := hx.reach.tail (.create hx.task hthr hk)
    obtain ⟨-, -, rfl⟩ := createThread_some (by decide) hk
    have hid : ((newThread 0x100#32 (BitVec.ofNat 32 (n + 1)) x.kernel).thread (BitVec.ofNat 32 (n + 1))).id =
        BitVec.ofNat 32 (n + 1) := by
      apply BitVec.eq_of_toNat_eq
      simp only [newThread, Function.update_self, BitVec.toNat_add, hi.next, hx.length]
      simp
    rw [hid] at hstep
    refine ⟨_, hstep, ?_, hx.task, ?_, ?_⟩
    · rw [List.length_append, hx.length, List.length_singleton]
    · intro thr hm
      rcases Finset.mem_insert.mp hm with rfl | hm
      · rw [BitVec.toNat_ofNat]
        exact Nat.mod_le ..
      · exact (hx.threads thr hm).trans (Nat.le_succ n)
    · intro id h0 hle
      by_cases e : id = BitVec.ofNat 32 (n + 1)
      · simp [e]
      · have hne : id.toNat ≠ n + 1 := fun e' => e (BitVec.eq_of_toNat_eq (by rw [e', BitVec.toNat_ofNat, Nat.mod_eq_of_lt (by omega)]))
        simpa [e] using hx.dict id h0 (by omega)

/-- The ids 1 and 8193 share a bucket; the first is removed. -/
theorem thread_map_faithful_shared : ∃ x, Runs.Reach Booted Step x ∧ mapIndex 1#32 = mapIndex 8193#32 ∧
    getThreadFromId 1#32 x.kernel = some none ∧ getThreadFromId 8193#32 x.kernel = some (some 8193#32) := by
  obtain ⟨x, hx⟩ := filled 8193 (by decide)
  obtain ⟨k', hk, -⟩ := (inv_of_reach hx.reach).faithful.remove 1#32 (by decide)
  have hreach := hx.reach.tail (.remove (by decide) hk)
  have hdict : x.dict 8193#32 = some 8193#32 := hx.dict _ (by decide) (by decide)
  refine ⟨_, hreach, by decide, ?_, ?_⟩
  · exact (thread_map_faithful hreach).get 1#32 (by decide)
  · exact ((thread_map_faithful hreach).get 8193#32 (by decide)).trans (congrArg some hdict)

/-! ## Ids from user space and from the counter -/

structure Call where
  lookups : List Word
  result : Option Int

def yieldHandler (tid : Word) (k : Kernel) : Call :=
  if tid ≠ -1#32 then
    ⟨[tid], (Kernel.getThreadFromId tid k).map fun
      | none => ERR_INVAL
      | some thr => if (k.thread thr).status = .waiting ∨ (k.thread thr).status = .descheduled then ERR_FAILURE else 0⟩
  else ⟨[], some 0⟩

/-- `make_runnable_handler_c`, but for the signal to the thread. -/
def makeRunnableHandler (tid : Word) (k : Kernel) : Call :=
  if tid.toInt < 0 then ⟨[], some ERR_INVAL⟩
  else
    ⟨[tid], (Kernel.getThreadFromId tid k).map fun
      | none => ERR_INVAL
      | some thr => if (k.thread thr).status ≠ .descheduled then ERR_INVAL else 0⟩

/-- `next_tid` after `n` calls of `create_thread`; the increment wraps. -/
def tidAfter : Nat → Word
  | 0 => 0#32
  | n + 1 => tidAfter n + 1#32

inductive IdSource where
  | yield (tid : Word)
  | makeRunnable (tid : Word)
  | created (before : Nat)

def InMap (id : Word) : Prop := 0 ≤ mapIndex id ∧ mapIndex id < HASHMAP_SIZE

/-- Every lookup is in the table, and an id without a thread is refused. -/
def Call.Safe (x : MapRun) (tid : Word) (c : Call) : Prop :=
  (∀ id ∈ c.lookups, InMap id) ∧ (x.dict tid = none → ∃ r, c.result = some r ∧ r < 0)

def Safe (x : MapRun) : IdSource → Prop
  | .yield tid => (yieldHandler tid x.kernel).Safe x tid
  | .makeRunnable tid => (makeRunnableHandler tid x.kernel).Safe x tid
  | .created before => InMap (tidAfter (before + 1))

/-- The id is not negative, or a multiple of the size of the table. -/
def Indexable (id : Word) : Prop := 0 ≤ id.toInt ∨ HASHMAP_SIZE ∣ id.toInt

instance (id : Word) : Decidable (Indexable id) := inferInstanceAs (Decidable (_ ∨ _))

def IdSource.Indexable : IdSource → Prop
  | .yield tid => MapRun.Indexable tid
  | .makeRunnable _ => True
  | .created before => MapRun.Indexable (tidAfter (before + 1))

section
variable {x : MapRun} {tid : Word}

theorem inMap_iff : InMap tid ↔ Indexable tid := by
  have hs : HASHMAP_SIZE = 8192 := by decide
  unfold InMap Indexable
  rw [and_iff_left (mapIndex_lt tid), mapIndex, Int.tmod_eq_emod, hs]
  split <;> omega

theorem Inv.yield_safe_iff (h : Inv x) : Safe x (.yield tid) ↔ Indexable tid := by
  by_cases e : tid = -1#32
  · -- any thread is meant, and no lookup is made
    subst e
    refine iff_of_false ?_ (by decide)
    rintro ⟨-, hr⟩
    have hnone : x.dict (-1#32) = none := by
      cases hd : x.dict (-1#32) with
      | none => rfl
      | some thr => exact absurd (h.faithful.ids.2 _ (h.entry _ thr hd).2.2) (by decide)
    obtain ⟨r, hres, hneg⟩ := hr hnone
    have h0 : (0 : Int) = r := Option.some.inj hres
    omega
  · have hcall : yieldHandler tid x.kernel = ⟨[tid], _⟩ := if_pos e
    rw [Safe, hcall, Call.Safe, List.forall_mem_singleton, inMap_iff]
    refine and_iff_left_of_imp fun hi hnone => ⟨ERR_INVAL, ?_, by decide⟩
    rw [h.getThreadFromId (inMap_iff.mpr hi).1, hnone]
    rfl

theorem Inv.makeRunnable_safe (h : Inv x) : Safe x (.makeRunnable tid) := by
  by_cases hneg : tid.toInt < 0
  · have hcall : makeRunnableHandler tid x.kernel = ⟨[], some ERR_INVAL⟩ := if_pos hneg
    rw [Safe, hcall]
    exact ⟨List.forall_mem_nil _, fun _ => ⟨ERR_INVAL, rfl, by decide⟩⟩
  · have hcall : makeRunnableHandler tid x.kernel = ⟨[tid], _⟩ := if_neg hneg
    have hi : InMap tid := inMap_iff.mpr (Or.inl (by omega))
    rw [Safe, hcall, Call.Safe, List.forall_mem_singleton]
    refine ⟨hi, fun hnone => ⟨ERR_INVAL, ?_, by decide⟩⟩
    rw [h.getThreadFromId hi.1, hnone]
    rfl

end

theorem tidAfter_eq (n : Nat) : tidAfter n = BitVec.ofNat 32 n := by
  induction n with
  | zero => rfl
  | succ n ih => rw [tidAfter, ih, BitVec.ofNat_add]

theorem nextTid_eq {x : MapRun} (h : Runs.Reach Booted Step x) : x.kernel.nextTid = tidAfter x.ids.length := by
  rw [tidAfter_eq, ← (inv_of_reach h).next, BitVec.ofNat_toNat, BitVec.setWidth_eq]

theorem ids_index_map_iff {x : MapRun} (h : Runs.Reach Booted Step x) (s : IdSource) : Safe x s ↔ s.Indexable := by
  have hi := inv_of_reach h
  cases s with
  | yield tid => exact hi.yield_safe_iff
  | makeRunnable tid => exact iff_of_true hi.makeRunnable_safe trivial
  | created before => exact inMap_iff

theorem ids_index_map_fresh : Safe freshMap (.yield 7#32) :=
  (ids_index_map_iff freshMap_reach (.yield 7#32)).mpr (Or.inl (by decide))

/-- `yield(-2)` reads the list head two before the table, and so does
`create_thread` once the counter has wrapped. -/
theorem yield_before_map : Runs.Reach Booted Step freshMap ∧ (yieldHandler (-2#32) freshMap.kernel).lookups = [-2#32] ∧
    mapIndex (-2#32) = -2 ∧ ¬ Safe freshMap (.yield (-2#32)) ∧ ¬ Safe freshMap (.created (2 ^ 32 - 3)) := by
  have hcall : yieldHandler (-2#32) freshMap.kernel = ⟨[-2#32], _⟩ := if_pos (by decide)
  refine ⟨freshMap_reach, by rw [hcall], by decide, ?_, ?_⟩
  · rw [Safe, hcall]
    exact fun hs => absurd (hs.1 _ (List.mem_singleton_self _)).1 (by decide)
  · rw [Safe, tidAfter_eq]
    exact fun hs => absurd hs.1 (by decide)

end MapRun

end Pebbles
