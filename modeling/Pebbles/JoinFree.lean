import Pebbles.ThreadsSound

/-!
# No TCB is used after it is freed

`thr_join` frees the TCB that `thr_exit` and other joiners may still point to. The TCB
is safe if it is looked up by one joiner at a time, and removed only when its thread has
made its last access to it.
-/

namespace Pebbles.User

open Runs Function Words

namespace ThrRun

def touches (x : ThrRun) (t : Int) : List Nat :=
  match x.pc t with
  | .creating (.add a _) => a :: x.list
  | .joining _ _ pos => match pos with
    | .find => x.list
    | .mutex a | .test a | .wait a | .status a | .destroyMutex a _ | .destroyCond a _ | .free a _ => [a]
    | .del a _ => a :: x.list
    | .lock | .unlock _ | .lockList _ _ | .unlockList _ => []
  | .exiting _ pos => match pos with
    | .find => x.list
    | .mutex a | .exited a | .status a | .signal a | .unlockMutex a | .stack a => [a]
    | .lock | .unlock _ | .vanish => []
  | _ => []

/-- A joiner looks a TCB up only while no other joiner of the thread has it, and removes it
only when its thread has made its last access. -/
def Careful (x : ThrRun) : ThrAct → Prop
  | .exec t => x.FindAlone t ∧ ∀ tid p a s, x.pc t = .joining tid p (.del a s) → (x.pc tid).left
  | _ => True

/-- No step touches a TCB that is freed; at most one `thr_join` on a thread returns 0, and the
others are not blocked: they can go on and return an error. -/
structure Right (x : ThrRun) : Prop where
  touches : ∀ t, ∀ a ∈ x.touches t, x.cell a ≠ .freed
  once : x.joins.Pairwise fun r r' => r.ret = 0 → r'.ret = 0 → r.tid ≠ r'.tid
  others : ∀ r ∈ x.joins, r.ret = 0 → ∀ t p pos, x.pc t = .joining r.tid p pos →
    ∃ y js, Relation.ReflTransGen (Step fun _ _ => True) x y ∧ y.pc t = .run ∧
      y.joins = ⟨t, r.tid, p, ERR_INVAL, none⟩ :: js

section
variable {x y : ThrRun} {t u tid : Int} {pos : ThrAt} {a : Nat}

/-! ## Pointers to freed TCBs -/

structure Uses (x : ThrRun) : Prop where
  base : Base x
  left : ∀ {t tid a}, (x.pc t).joinUnlinked = some (tid, a) → (x.pc tid).left
  found : ∀ {t a}, (x.pc t).exitFound = some a → x.cell a ≠ .freed

theorem Uses.touches (h : Uses x) (ha : a ∈ x.touches t) : x.cell a ≠ .freed := by
  have hlist : ∀ {b}, b ∈ x.list → x.cell b ≠ .freed := by
    intro b hb
    simp [(h.base.mem b).mp hb]
  have hg := h.base.good t
  have hf := h.found (t := t) (a := a)
  unfold ThrRun.touches at ha
  cases hp : x.pc t with
  | none | run | gone => simp [hp] at ha
  | creating pos =>
    rw [hp] at ha hg
    cases pos with
    | add b tid =>
      rcases List.mem_cons.mp ha with rfl | ha
      · simp [hg.created a rfl]
      · exact hlist ha
    | lock | fork | unlock => cases ha
  | joining tid p pos =>
    rw [hp] at ha hg
    cases pos with
    | find => exact hlist ha
    | mutex b | test b | wait b | status b =>
      obtain rfl := List.mem_singleton.mp ha
      simp [(hg.linked tid a rfl).1]
    | del b s =>
      rcases List.mem_cons.mp ha with rfl | ha
      · simp [(hg.linked tid a rfl).1]
      · exact hlist ha
    | destroyMutex b s | destroyCond b s | free b s =>
      obtain rfl := List.mem_singleton.mp ha
      simp [(hg.unlinked tid a rfl).1]
    | lock | unlock | lockList | unlockList => cases ha
  | exiting v pos =>
    rw [hp] at ha hf
    cases pos with
    | find => exact hlist ha
    | mutex b | exited b | status b | signal b | unlockMutex b | stack b =>
      obtain rfl := List.mem_singleton.mp ha
      exact hf rfl
    | lock | unlock | vanish => cases ha

theorem Uses.goes (h : Uses x) (hb : Base y) (hpc : y.pc = update x.pc t pos) (hleft : (x.pc t).left → pos.left)
    (hunl : ∀ r a, pos.joinUnlinked = some (r, a) → (x.pc t).joinUnlinked = some (r, a) ∨ (x.pc r).left)
    (hfreed : ∀ u a, (y.pc u).exitFound = some a → y.cell a ≠ .freed) : Uses y := by
  have hstill : ∀ {r}, (x.pc r).left → (y.pc r).left := by
    intro r hr
    rw [hpc]
    by_cases e : r = t
    · rw [e, update_self]
      exact hleft (e ▸ hr)
    · rwa [update_of_ne e]
  refine ⟨hb, fun {u r a} hu => hstill ?_, fun {u a} => hfreed u a⟩
  rw [hpc] at hu
  by_cases e : u = t
  · rw [e, update_self] at hu
    rcases hunl r a hu with hu | hr
    · exact h.left hu
    · exact hr
  · rw [update_of_ne e] at hu
    exact h.left hu

theorem Uses.keeps (h : Uses x) (hb : Base y) (hpc : y.pc = update x.pc t pos) (hleft : (x.pc t).left → pos.left)
    (hunl : ∀ r a, pos.joinUnlinked = some (r, a) → (x.pc t).joinUnlinked = some (r, a) ∨ (x.pc r).left)
    (hfound : ∀ a, pos.exitFound = some a → (x.pc t).exitFound = some a ∨ x.cell a ≠ .freed)
    (hcell : ∀ a, y.cell a = .freed → x.cell a = .freed) : Uses y := by
  refine h.goes hb hpc hleft hunl fun u a hu hf => ?_
  rw [hpc] at hu
  by_cases e : u = t
  · rw [e, update_self] at hu
    rcases hfound a hu with hu | hc
    · exact h.found hu (hcell a hf)
    · exact hc (hcell a hf)
  · rw [update_of_ne e] at hu
    exact h.found hu (hcell a hf)

theorem freed_of_update {f : Nat → Cell} {b : Nat} {c : Cell} (hc : c ≠ .freed) (h : update f a c b = .freed) :
    f b = .freed := by
  by_cases e : b = a
  · rw [e, update_self] at h
    exact absurd h hc
  · rwa [update_of_ne e] at h

theorem not_found_of_left (hl : pos.left) (hf : pos.exitFound = some a) : False := by
  cases pos with
  | exiting v pos => cases pos <;> first | (cases hf; done) | cases hl
  | none | run | creating | joining | gone => cases hf

theorem Uses.did {c : ThrAct} (h : Uses x) (hok : x.Careful c) (hs : Did x c y) : Uses y := by
  have hb : Base y := h.base.did (fun t ht => by subst ht; exact hok.1) hs
  cases hs with
  | quiet t pos hpc hcell _ _ _ _ _ hq =>
    exact h.keeps hb hpc hq.left (fun r a hr => .inl (hq.unlinked _ hr)) (fun a ha => .inl (hq.found a ha))
      fun a => by simp [hcell]
  | @create t a hp hc =>
    exact h.keeps (t := t) hb rfl (fun hl => by rw [hp] at hl; cases hl) (by simp [ThrAt.joinUnlinked])
      (by simp [ThrAt.exitFound])
      fun b => freed_of_update (by simp)
  | failed hp _ =>
    exact h.keeps hb rfl (fun hl => by rw [hp] at hl; cases hl) (by simp [ThrAt.joinUnlinked])
      (by simp [ThrAt.exitFound]) fun _ => id
  | @forked t a tid hp _ hnone =>
    have hne : t ≠ tid := by
      rintro rfl
      rw [hp] at hnone
      cases hnone
    have hx : Uses (x.goto tid .run) := by
      refine h.keeps (t := tid) ?_ rfl (fun hl => by rw [hnone] at hl; cases hl) (by simp [ThrAt.joinUnlinked])
        (by simp [ThrAt.exitFound]) fun _ => id
      exact h.base.quiet rfl rfl (fun _ => rfl) rfl (by simp) (ThrAt.Bare.inherits ⟨rfl, rfl, rfl, rfl, rfl⟩)
    have hp' : (x.goto tid .run).pc t = .creating (.fork a) := (update_of_ne hne ..).trans hp
    exact hx.keeps (t := t) hb rfl (fun hl => by rw [hp'] at hl; cases hl) (by simp [ThrAt.joinUnlinked])
      (by simp [ThrAt.exitFound])
      fun _ => id
  | @add t a tid hp =>
    exact h.keeps (t := t) hb rfl (fun hl => by rw [hp] at hl; cases hl) (by simp [ThrAt.joinUnlinked])
      (by simp [ThrAt.exitFound])
      fun b => freed_of_update (by simp)
  | @found t tid p a hp hf =>
    exact h.keeps (t := t) hb rfl (fun hl => by rw [hp] at hl; cases hl) (by simp [ThrAt.joinUnlinked, JoinAt.unlinked])
      (by simp [ThrAt.exitFound]) fun _ => id
  | @exitFound t v a hp hf =>
    refine h.keeps (t := t) hb rfl (fun hl => by rw [hp] at hl; cases hl) (by simp [ThrAt.joinUnlinked])
      (fun b hb => .inr ?_) fun _ => id
    cases hb
    simp [(h.base.mem a).mp (findTcb_eq_some hf).1]
  | @del t tid p a s hp =>
    refine h.keeps (t := t) hb rfl (fun hl => by rw [hp] at hl; cases hl) (fun r b hr => .inr ?_)
      (by simp [ThrAt.exitFound])
      fun b => freed_of_update (by simp)
    cases hr
    exact hok.2 tid p a s hp
  | @free t tid p a s hp =>
    -- the thread of the TCB has made its last access
    have hunl : (x.pc t).joinUnlinked = some (tid, a) := by rw [hp]; rfl
    have hleft := h.left hunl
    have hid := ((h.base.good t).unlinked tid a hunl).2
    refine h.goes (t := t) hb rfl (fun hl => by rw [hp] at hl; cases hl)
      (by simp [ThrAt.joinUnlinked, JoinAt.unlinked]) fun u b hu hf => ?_
    have hut : u ≠ t := by
      rintro rfl
      rw [show ((x.setCell a .freed).goto u _).pc u = _ from update_self ..] at hu
      cases hu
    have hpu : ((x.setCell a .freed).goto t (.joining tid p (.unlockList s))).pc u = x.pc u := update_of_ne hut ..
    rw [hpu] at hu
    by_cases e : b = a
    · subst e
      obtain rfl : tid = u := hid.symm.trans ((h.base.good u).found b hu).2
      exact not_found_of_left hleft hu
    · exact h.found hu ((update_of_ne e ..).symm.trans hf)
  | @returns t tid p s hp =>
    exact h.keeps (t := t) hb rfl (fun hl => by rw [hp] at hl; cases hl) (by simp [ThrAt.joinUnlinked])
      (by simp [ThrAt.exitFound])
      fun _ => id

/-! ## The answers of `thr_join` -/

structure Removed (x : ThrRun) (tid : Int) : Prop where
  nonneg : 0 ≤ tid
  list : ∀ a ∈ x.list, (x.tcb a).id ≠ tid
  alone : ∀ u, ¬ (x.pc u).HasTcb tid
  newTid : ∀ u, (x.pc u).newTid ≠ some tid
  started : x.pc tid ≠ .none

theorem Removed.goes {r : Int} (h : Removed x r) (hpc : y.pc = update x.pc t pos) (hpos : pos ≠ .none)
    (hlist : ∀ a ∈ y.list, (y.tcb a).id ≠ r) (hhas : pos.HasTcb r → (x.pc t).HasTcb r) (hnew : pos.newTid ≠ some r) :
    Removed y r := by
  refine ⟨h.nonneg, hlist, fun u hu => ?_, fun u hu => ?_, ?_⟩
  · rw [hpc] at hu
    by_cases e : u = t
    · rw [e, update_self] at hu
      exact h.alone t (hhas hu)
    · rw [update_of_ne e] at hu
      exact h.alone u hu
  · rw [hpc] at hu
    by_cases e : u = t
    · rw [e, update_self] at hu
      exact hnew hu
    · rw [update_of_ne e] at hu
      exact h.newTid u hu
  · rw [hpc]
    by_cases e : r = t
    · rwa [e, update_self]
    · rw [update_of_ne e]
      exact h.started

theorem not_hasTcb {r : Int} (h₁ : pos.joinLinked = none) (h₂ : pos.joinUnlinked = none) : ¬ pos.HasTcb r := by
  rintro ⟨b, hb | hb⟩
  · rw [h₁] at hb
    cases hb
  · rw [h₂] at hb
    cases hb

theorem Removed.did {c : ThrAct} {r : Int} (h : Removed x r) (hs : Did x c y) : Removed y r := by
  cases hs with
  | quiet t pos hpc _ hid hlist _ _ hpos hq =>
    refine h.goes hpc hpos (fun a ha => ?_) hq.toInherits.hasTcb fun hn => h.newTid t (hq.newTid r hn)
    rw [hid]
    exact h.list a (hlist ▸ ha)
  | @create t a hp hc =>
    refine h.goes (t := t) rfl (by simp) (fun b hb => ?_) (fun hx => absurd hx (not_hasTcb rfl rfl))
      (by simp [ThrAt.newTid])
    have hid : (update x.tcb a (initTcb 0#32 (x.tcb a)) b).id = (x.tcb b).id := id_update (by rfl) b
    exact fun he => h.list b hb (hid.symm.trans he)
  | @failed t a tid hp hneg =>
    have hnn := h.nonneg
    refine h.goes rfl (by simp) h.list (fun hx => absurd hx (not_hasTcb rfl rfl)) fun hx => ?_
    cases hx
    omega
  | @forked t a tid hp _ hnone =>
    have hne : tid ≠ r := by
      rintro rfl
      exact h.started hnone
    have hx : Removed (x.goto tid .run) r :=
      h.goes rfl (by simp) h.list (fun hx => absurd hx (not_hasTcb rfl rfl)) (by simp [ThrAt.newTid])
    exact hx.goes rfl (by simp) h.list (fun hx => absurd hx (not_hasTcb rfl rfl)) (by simpa [ThrAt.newTid] using hne)
  | @add t a tid hp =>
    have hne : tid ≠ r := by
      rintro rfl
      exact h.newTid t (by rw [hp]; rfl)
    refine h.goes (t := t) rfl (by simp) (fun b hb he => ?_) (fun hx => absurd hx (not_hasTcb rfl rfl))
      (by simp [ThrAt.newTid])
    by_cases e : b = a
    · exact hne (by simpa [goto, setCell, setTcb, e] using he)
    · have hb : b ∈ x.list := by simpa [e] using hb
      exact h.list b hb (by simpa [goto, setCell, setTcb, e] using he)
  | @found t tid p a hp hf =>
    refine h.goes rfl (by simp) h.list (fun hx => ?_) (by simp [ThrAt.newTid])
    obtain ⟨b, hb | hb⟩ := hx
    · cases hb
      obtain ⟨hmem, hid⟩ := findTcb_eq_some hf
      exact absurd hid (h.list a hmem)
    · cases hb
  | @exitFound t v a hp hf =>
    exact h.goes rfl (by simp) h.list (fun hx => absurd hx (not_hasTcb rfl rfl)) (by simp [ThrAt.newTid])
  | @del t tid p a s hp =>
    refine h.goes (t := t) rfl (by simp) (fun b hb => h.list b (List.mem_of_mem_erase hb)) (fun hx => ?_)
      (by simp [ThrAt.newTid])
    obtain ⟨b, hb | hb⟩ := hx
    · cases hb
    · cases hb
      exact ⟨a, .inl (by rw [hp]; rfl)⟩
  | @free t tid p a s hp =>
    exact h.goes (t := t) rfl (by simp) h.list (fun hx => absurd hx (not_hasTcb rfl rfl)) (by simp [ThrAt.newTid])
  | @returns t tid p s hp =>
    exact h.goes (t := t) rfl (by simp) h.list (fun hx => absurd hx (not_hasTcb rfl rfl)) (by simp [ThrAt.newTid])

structure Answers (x : ThrRun) : Prop where
  pos : ∀ {t}, x.pc t ≠ .none → 0 < t
  gone : ∀ {t tid}, (x.pc t).leaving = some tid → x.Removed tid
  alone : ∀ {t u tid}, (x.pc t).leaving = some tid → (x.pc u).leaving = some tid → t = u
  zero : ∀ r ∈ x.joins, r.ret = 0 → x.Removed r.tid
  first : ∀ {t tid}, (x.pc t).leaving = some tid → ∀ r ∈ x.joins, r.ret = 0 → r.tid ≠ tid
  once : x.joins.Pairwise fun r r' => r.ret = 0 → r'.ret = 0 → r.tid ≠ r'.tid

theorem Answers.keeps {c : ThrAct} (h : Answers x) (hs : Did x c y) (hpos : ∀ {u}, y.pc u ≠ .none → 0 < u)
    (hold : ∀ {u tid}, (y.pc u).leaving = some tid → (x.pc u).leaving = some tid)
    (hjoins : y.joins = x.joins ∨ ∃ r : Joined, r.ret ≠ 0 ∧ y.joins = r :: x.joins) : Answers y := by
  have hzero : ∀ r ∈ y.joins, r.ret = 0 → r ∈ x.joins := by
    intro r hr h0
    rcases hjoins with hj | ⟨r', hr', hj⟩
    · exact hj ▸ hr
    · rw [hj] at hr
      rcases List.mem_cons.mp hr with rfl | hr
      · exact absurd h0 hr'
      · exact hr
  refine ⟨hpos, fun hu => (h.gone (hold hu)).did hs, fun hu hv => h.alone (hold hu) (hold hv),
    fun r hr h0 => (h.zero r (hzero r hr h0) h0).did hs, fun hu r hr h0 => h.first (hold hu) r (hzero r hr h0) h0, ?_⟩
  rcases hjoins with hj | ⟨r', hr', hj⟩
  · rw [hj]
    exact h.once
  · rw [hj]
    exact List.pairwise_cons.mpr ⟨fun r _ h0 => absurd h0 hr', h.once⟩

theorem Answers.pos_update (h : Answers x) (hpc : y.pc = update x.pc t pos) (hne : x.pc t ≠ .none)
    (hu : y.pc u ≠ .none) :
    0 < u := by
  rw [hpc] at hu
  by_cases e : u = t
  · exact e ▸ h.pos hne
  · rw [update_of_ne e] at hu
    exact h.pos hu

theorem leaving_update {f : Int → ThrAt} (hpos : pos.leaving = none) (hu : (update f t pos u).leaving = some tid) :
    (f u).leaving = some tid := by
  by_cases e : u = t
  · rw [e, update_self, hpos] at hu
    cases hu
  · rwa [update_of_ne e] at hu

theorem Answers.goes {c : ThrAct} (h : Answers x) (hs : Did x c y) (hpc : y.pc = update x.pc t pos)
    (hne : x.pc t ≠ .none)
    (hpos : pos.leaving = none) (hjoins : y.joins = x.joins ∨ ∃ r : Joined, r.ret ≠ 0 ∧ y.joins = r :: x.joins) :
    Answers y :=
  h.keeps hs (h.pos_update hpc hne) (fun hu => leaving_update hpos (hpc ▸ hu)) hjoins

theorem Uses.removed {p : Bool} {s : Option Word} (h : Uses x) (ha : Answers x)
    (hp : x.pc t = .joining tid p (.free a s)) :
    Removed ((x.setCell a .freed).goto t (.joining tid p (.unlockList s))) tid := by
  have hunl : (x.pc t).joinUnlinked = some (tid, a) := by rw [hp]; rfl
  obtain ⟨hc, hid⟩ := (h.base.good t).unlinked tid a hunl
  have hleft := h.left hunl
  have hsome : x.pc tid ≠ .none := by
    intro hn
    rw [hn] at hleft
    cases hleft
  have hpos := ha.pos hsome
  have hadd : x.Added a := .inr (.inl hc)
  have hother : ∀ u, u ≠ t → ((x.setCell a .freed).goto t (.joining tid p (.unlockList s))).pc u = x.pc u :=
    fun u hu => update_of_ne hu ..
  have hself : ((x.setCell a .freed).goto t (.joining tid p (.unlockList s))).pc t = .joining tid p (.unlockList s) :=
    update_self ..
  refine ⟨hpos.le, fun b hb he => ?_, fun u hu => ?_, fun u hu => ?_, ?_⟩
  · have hcb := (h.base.mem b).mp hb
    have he : (x.tcb b).id = tid := he
    obtain rfl := h.base.ids (.inl hcb) hadd (he ▸ hpos) (he.trans hid.symm)
    rw [hc] at hcb
    cases hcb
  · by_cases e : u = t
    · rw [e, hself] at hu
      exact not_hasTcb rfl rfl hu
    · rw [hother u e] at hu
      exact e (h.base.joiners hu ⟨a, .inr hunl⟩)
  · by_cases e : u = t
    · rw [e, hself] at hu
      cases hu
    · rw [hother u e] at hu
      exact ((h.base.good u).newTid tid hu).2.2 a hadd hpos hid
  · by_cases e : tid = t
    · simp [goto, e]
    · rwa [hother tid e]

theorem Answers.did {c : ThrAct} (h : Answers x) (hu : Uses x) (hs : Did x c y) : Answers y := by
  have hs' := hs
  cases hs with
  | quiet t pos hpc _ _ _ hjoins hne _ hq => exact h.goes hs' hpc hne hq.leaving hjoins
  | @create t a hp _ => exact h.goes (t := t) hs' rfl (by simp [hp]) rfl (.inl rfl)
  | failed hp _ => exact h.goes hs' rfl (by simp [hp]) rfl (.inl rfl)
  | @forked t a tid hp hpos hnone =>
    have hx : ∀ {u}, update x.pc tid .run u ≠ .none → 0 < u := by
      intro u hu
      by_cases e : u = tid
      · exact e ▸ hpos
      · rw [update_of_ne e] at hu
        exact h.pos hu
    refine h.keeps hs' (fun {u} hu => ?_) (fun hu => leaving_update rfl (leaving_update rfl hu)) (.inl rfl)
    by_cases e : u = t
    · exact e ▸ h.pos (by simp [hp])
    · exact hx (by rwa [show ((x.goto tid .run).goto t _).pc u = _ from update_of_ne e ..] at hu)
  | @add t a tid hp => exact h.goes (t := t) hs' rfl (by simp [hp]) rfl (.inl rfl)
  | found hp _ => exact h.goes hs' rfl (by simp [hp]) rfl (.inl rfl)
  | exitFound hp _ => exact h.goes hs' rfl (by simp [hp]) rfl (.inl rfl)
  | @del t tid p a s hp => exact h.goes (t := t) hs' rfl (by simp [hp]) rfl (.inl rfl)
  | @free t tid p a s hp =>
    have hhas : (x.pc t).HasTcb tid := ⟨a, .inr (by rw [hp]; rfl)⟩
    have hnot : ∀ {u}, (x.pc u).leaving ≠ some tid := fun hl => (h.gone hl).alone t hhas
    have hold : ∀ {u r}, u ≠ t → (((x.setCell a .freed).goto t
      (.joining tid p (.unlockList s))).pc u).leaving = some r →
        (x.pc u).leaving = some r := by
      intro u r hu hl
      rwa [show ((x.setCell a .freed).goto t (.joining tid p (.unlockList s))).pc u = _ from update_of_ne hu ..] at hl
    have hself : (((x.setCell a .freed).goto t (.joining tid p (.unlockList s))).pc t).leaving = some tid := by
      simp [goto, ThrAt.leaving]
    refine ⟨h.pos_update (t := t) rfl (by simp [hp]), fun {u r} hl => ?_, fun {u v r} hl hl' => ?_,
      fun r hr h0 => (h.zero r hr h0).did hs', fun {u r} hl r' hr' h0 => ?_, h.once⟩
    · by_cases e : u = t
      · rw [e, hself] at hl
        cases hl
        exact hu.removed h hp
      · exact (h.gone (hold e hl)).did hs'
    · by_cases e : u = t <;> by_cases e' : v = t
      · rw [e, e']
      · rw [e, hself] at hl
        cases hl
        exact absurd (hold e' hl') hnot
      · rw [e', hself] at hl'
        cases hl'
        exact absurd (hold e hl) hnot
      · exact h.alone (hold e hl) (hold e' hl')
    · by_cases e : u = t
      · rw [e, hself] at hl
        cases hl
        intro he
        exact (h.zero r' hr' h0).alone t (he ▸ hhas)
      · exact h.first (hold e hl) r' hr' h0
  | @returns t tid p s hp =>
    have hl : (x.pc t).leaving = some tid := by rw [hp]; rfl
    have hold : ∀ {u r}, ((x.unlockList.returns t tid p 0 s).pc u).leaving = some r → u ≠ t ∧
      (x.pc u).leaving = some r := by
      intro u r hu
      by_cases e : u = t
      · rw [e, show (x.unlockList.returns t tid p 0 s).pc t = .run from update_self ..] at hu
        cases hu
      · rw [show (x.unlockList.returns t tid p 0 s).pc u = x.pc u from update_of_ne e ..] at hu
        exact ⟨e, hu⟩
    have hzero := h.first hl
    refine ⟨h.pos_update (t := t) rfl (by simp [hp]), fun hu => (h.gone (hold hu).2).did hs',
      fun hu hv => h.alone (hold hu).2 (hold hv).2, fun r hr h0 => ?_, fun {u r} hu r' hr' h0 => ?_, ?_⟩
    · rcases List.mem_cons.mp hr with rfl | hr
      · exact (h.gone hl).did hs'
      · exact (h.zero r hr h0).did hs'
    · obtain ⟨hne, hu⟩ := hold hu
      rcases List.mem_cons.mp hr' with rfl | hr'
      · rintro rfl
        exact hne (h.alone hu hl)
      · exact h.first hu r' hr' h0
    · refine List.pairwise_cons.mpr ⟨fun r hr _ h0 => ?_, h.once⟩
      exact (hzero r hr h0).symm

/-! ## Joiners that find nothing -/

def listSteps : ThrAt → Nat
  | .creating pos => match pos with
    | .fork _ => 2
    | .add _ _ => 1
    | _ => 0
  | .joining _ _ pos => match pos with
    | .del _ _ => 4
    | .destroyMutex _ _ => 3
    | .destroyCond _ _ => 2
    | .find | .free _ _ => 1
    | _ => 0
  | .exiting _ pos => match pos with
    | .find => 1
    | _ => 0
  | _ => 0

theorem owner_goes (h : (x.pc t).holdsList) : ∃ c y, x.act c = some y ∧ (∀ u, u ≠ t → y.pc u = x.pc u) ∧
    (y.tcbLock ≠ 0 ∨ (y.pc t).holdsList ∧ listSteps (y.pc t) < listSteps (x.pc t)) := by
  have hgo : ∀ {y : ThrRun} {pos : ThrAt}, y.pc = update x.pc t pos → pos.holdsList →
    listSteps pos < listSteps (x.pc t) →
      (∀ u, u ≠ t → y.pc u = x.pc u) ∧ (y.tcbLock ≠ 0 ∨ (y.pc t).holdsList ∧
      listSteps (y.pc t) < listSteps (x.pc t)) := by
    intro y pos hpc hh hlt
    refine ⟨fun u hu => by rw [hpc, update_of_ne hu], .inr ?_⟩
    rw [hpc, update_self]
    exact ⟨hh, hlt⟩
  have hun : ∀ {y : ThrRun} {pos : ThrAt}, y.pc = update x.pc t pos → y.tcbLock = 1 →
      (∀ u, u ≠ t → y.pc u = x.pc u) ∧ (y.tcbLock ≠ 0 ∨ (y.pc t).holdsList ∧ listSteps (y.pc t) < listSteps (x.pc t)) :=
    fun hpc hl => ⟨fun u hu => by rw [hpc, update_of_ne hu], .inl (by simp [hl])⟩
  cases hp : x.pc t with
  | none | run | gone =>
    rw [hp] at h
    cases h
  | creating pos =>
    rw [hp] at h hgo hun
    cases pos with
    | lock => cases h
    | fork a => exact ⟨.fork t (-1), _, by simp [act, hp]; rfl, hgo rfl rfl (by simp [listSteps])⟩
    | add a tid => exact ⟨.exec t, _, by simp [act, exec, hp, execCreate]; rfl, hgo rfl rfl (by simp [listSteps])⟩
    | unlock => exact ⟨.exec t, _, by simp [act, exec, hp, execCreate]; rfl, hun rfl rfl⟩
  | joining tid p pos =>
    rw [hp] at h hgo hun
    cases pos with
    | find | del | destroyMutex | destroyCond | free =>
      exact ⟨.exec t, _, by simp [act, exec, hp, execJoin]; rfl, hgo rfl rfl (by simp [listSteps])⟩
    | unlock r =>
      cases r <;> exact ⟨.exec t, _, by simp [act, exec, hp, execJoin]; rfl, hun rfl rfl⟩
    | unlockList s => exact ⟨.exec t, _, by simp [act, exec, hp, execJoin]; rfl, hun rfl rfl⟩
    | lock | mutex | test | wait | status | lockList => cases h
  | exiting v pos =>
    rw [hp] at h hgo hun
    cases pos with
    | find => exact ⟨.exec t, _, by simp [act, exec, hp, execExit]; rfl, hgo rfl rfl (by simp [listSteps])⟩
    | unlock r =>
      cases r <;> exact ⟨.exec t, _, by simp [act, exec, hp, execExit]; rfl, hun rfl rfl⟩
    | lock | mutex | exited | status | signal | unlockMutex | stack | vanish => cases h

theorem Locked.frees {r : Int} {n : Nat} (h : Locked x) (hr : Removed x r) (ht : (x.pc t).holdsList = false)
    (hn : ∀ u, (x.pc u).holdsList → listSteps (x.pc u) < n) : ∃ y, Relation.ReflTransGen (Step fun _ _ => True) x y ∧
      y.tcbLock ≠ 0 ∧ y.pc t = x.pc t ∧ Removed y r := by
  induction n generalizing x with
  | zero =>
    refine ⟨x, .refl, fun h0 => ?_, rfl, hr⟩
    obtain ⟨u, hu⟩ := h.holder h0
    exact absurd (hn u hu) (by omega)
  | succ n ih =>
    by_cases h0 : x.tcbLock = 0
    · obtain ⟨u, hu⟩ := h.holder h0
      obtain ⟨c, y, hs, hother, hy⟩ := owner_goes hu
      have hne : t ≠ u := by
        rintro rfl
        rw [ht] at hu
        cases hu
      have hstep : Step (fun _ _ => True) x y := ⟨c, trivial, hs⟩
      have hr' := hr.did (act_did hs)
      rcases hy with hy | ⟨hy, hlt⟩
      · exact ⟨y, .single hstep, hy, hother t hne, hr'⟩
      · have hl := h.act hs
        obtain ⟨z, hz, hfree, hpc, hrem⟩ := ih hl hr' (by rwa [hother t hne]) fun v hv => by
          obtain rfl := hl.unique hv hy
          have := hn v hu
          omega
        exact ⟨z, .head hstep hz, hfree, hpc.trans (hother t hne), hrem⟩
    · exact ⟨x, .refl, h0, rfl, hr⟩

theorem Removed.findTcb {r : Int} (h : Removed x r) : x.findTcb r = none := by
  refine List.find?_eq_none.mpr fun a ha => ?_
  simpa using h.list a ha

theorem Removed.answers {r : Int} {p : Bool} {q : JoinAt} (h : Removed x r) (hl : Locked x)
    (hp : x.pc t = .joining r p q)
    (hq : q = .lock ∨ q = .find ∨ q = .unlock none) : ∃ y js, Relation.ReflTransGen (Step fun _ _ => True) x y ∧
      y.pc t = .run ∧ y.joins = ⟨t, r, p, ERR_INVAL, none⟩ :: js := by
  have hunlock : ∀ {x : ThrRun}, x.pc t = .joining r p (.unlock none) → ∃ y js,
      Relation.ReflTransGen (Step fun _ _ => True) x y ∧ y.pc t = .run ∧
      y.joins = ⟨t, r, p, ERR_INVAL, none⟩ :: js := by
    intro x hp
    exact ⟨_, x.joins, .single ⟨.exec t, trivial, by simp [act, exec, hp, execJoin]; rfl⟩, update_self .., rfl⟩
  have hfind : ∀ {x : ThrRun}, x.pc t = .joining r p .find → Removed x r → ∃ y js,
      Relation.ReflTransGen (Step fun _ _ => True) x y ∧ y.pc t = .run ∧
      y.joins = ⟨t, r, p, ERR_INVAL, none⟩ :: js := by
    intro x hp hx
    have hs : Step (fun _ _ => True) x (x.goto t (.joining r p (.unlock none))) :=
      ⟨.exec t, trivial, by simp [act, exec, hp, execJoin, hx.findTcb]⟩
    obtain ⟨y, js, hy, hrun, hj⟩ := hunlock (x := x.goto t (.joining r p (.unlock none))) (update_self ..)
    exact ⟨y, js, .head hs hy, hrun, hj⟩
  rcases hq with rfl | rfl | rfl
  · have hsteps : ∀ pos : ThrAt, listSteps pos < 5 := by
      intro pos
      cases pos with
      | creating q => cases q <;> simp [listSteps]
      | joining _ _ q => cases q <;> simp [listSteps]
      | exiting _ q => cases q <;> simp [listSteps]
      | none | run | gone => simp [listSteps]
    obtain ⟨y, hy, hfree, hpc, hrem⟩ := hl.frees (n := 5) (t := t) h (by rw [hp]; rfl) fun u _ => hsteps _
    have hs : Did y (.exec t) { y.goto t (.joining r p .find) with tcbLock := 0 } := by
      refine act_did ?_
      simp only [act, exec, hpc, hp, execJoin]
      exact lockList_eq_some.mpr ⟨hfree, rfl⟩
    have hs' : Step (fun _ _ => True) y { y.goto t (.joining r p .find) with tcbLock := 0 } := by
      refine ⟨.exec t, trivial, ?_⟩
      simp only [act, exec, hpc, hp, execJoin]
      exact lockList_eq_some.mpr ⟨hfree, rfl⟩
    obtain ⟨z, js, hz, hrun, hj⟩ := hfind (x := { y.goto t (.joining r p .find) with tcbLock := 0 }) (update_self ..)
      (hrem.did hs)
    exact ⟨z, js, hy.trans (.head hs' hz), hrun, hj⟩
  · exact hfind hp h
  · exact hunlock hp

/-! ## The runs -/

theorem Uses.right (h : Uses x) (ha : Answers x) (hl : Locked x) : x.Right := by
  refine ⟨fun t a ht => h.touches ht, ha.once, fun r hr h0 t p pos hp => ?_⟩
  have hrem := ha.zero r hr h0
  have hnot := hrem.alone t
  have hleave : (x.pc t).leaving ≠ some r.tid := fun hl => ha.first hl r hr h0 rfl
  rw [hp] at hnot hleave
  refine hrem.answers hl hp ?_
  cases pos with
  | lock => exact .inl rfl
  | find => exact .inr (.inl rfl)
  | unlock q =>
    cases q with
    | none => exact .inr (.inr rfl)
    | some a => exact absurd ⟨a, .inl rfl⟩ hnot
  | mutex a | test a | wait a | status a | lockList a | del a => exact absurd ⟨a, .inl rfl⟩ hnot
  | destroyMutex a | destroyCond a | free a => exact absurd ⟨a, .inr rfl⟩ hnot
  | unlockList s => exact absurd rfl hleave

theorem Init.answers (h : Init x) : Uses x ∧ Answers x := by
  obtain ⟨t, a, ht, -, -, -, -, -, hpc, -⟩ := h.first
  have hbare : ∀ u, (x.pc u).Bare ∧ (x.pc u).leaving = none := by
    intro u
    rw [hpc]
    by_cases e : u = t
    · rw [e, update_self]
      exact ⟨⟨rfl, rfl, rfl, rfl, rfl⟩, rfl⟩
    · rw [update_of_ne e]
      exact ⟨⟨rfl, rfl, rfl, rfl, rfl⟩, rfl⟩
  refine ⟨⟨h.base, fun {u r b} hu => ?_, fun {u b} hu => ?_⟩,
    ⟨fun {u} hu => ?_, fun {u r} hu => ?_, fun {u v r} hu => ?_, ?_, ?_, ?_⟩⟩
  · rw [(hbare u).1.2.2.2.1] at hu
    cases hu
  · rw [(hbare u).1.2.2.2.2] at hu
    cases hu
  · by_contra hneg
    have e : u ≠ t := by
      rintro rfl
      exact hneg ht
    rw [hpc, update_of_ne e] at hu
    exact hu rfl
  · rw [(hbare u).2] at hu
    cases hu
  · rw [(hbare u).2] at hu
    cases hu
  · simp [h.joins]
  · simp [h.joins]
  · simp [h.joins]

/-- In every run in which a TCB is looked up by one joiner at a time and removed after the last
access of its own thread, no step uses a freed TCB, and joins do not hang each other. -/
theorem no_use_after_free (h : Reach Init (Step Careful) x) : x.Right := by
  have hinv : (Uses x ∧ Answers x) ∧ Locked x := by
    refine h.invariant (P := fun x => (Uses x ∧ Answers x) ∧ Locked x) (fun y hy => ⟨hy.answers, hy.locked⟩) ?_
    rintro y z ⟨⟨hu, ha⟩, hl⟩ ⟨c, hok, hs⟩
    exact ⟨⟨hu.did hok (act_did hs), ha.did hu (act_did hs)⟩, hl.act hs⟩
  exact hinv.1.1.right hinv.1.2 hinv.2

end

def booted : ThrRun where
  tcb _ := ⟨1, FALSE, 0#32, 0#32, condInit, MUTEX_VALID⟩
  list := [0]
  tcbLock := MUTEX_VALID
  reject _ := 0
  sleeping _ := false
  pc := update (fun _ => .none) 1 .run
  cond _ := .done
  cell := update (fun _ => .unused) 0 .linked
  exits _ := none
  called := []
  joins := []

theorem booted_init : Init booted :=
  ⟨⟨1, 0, by decide, rfl, rfl, rfl, rfl, rfl, rfl, rfl⟩, rfl, fun _ => rfl, fun _ => rfl, fun _ => rfl, rfl, rfl⟩

def go (t : Int) (n : Nat) : List ThrAct := List.replicate n (.exec t)

def starts (tid : Int) (a : Nat) : List ThrAct := .create 1 a :: go 1 1 ++ .fork 1 tid :: go 1 2

def actPlain (x : ThrRun) (c : ThrAct) : Option ThrRun :=
  match c with
  | .exec t => match x.pc t with
    | .joining _ _ _ => none
    | _ => x.act c
  | _ => x.act c

theorem actPlain_step (x : ThrRun) (c : ThrAct) (y : ThrRun) (h : x.actPlain c = some y) : Step Careful x y := by
  unfold actPlain at h
  cases c with
  | exec t =>
    dsimp only at h
    split at h
    · cases h
    · rename_i hp
      exact ⟨.exec t, ⟨fun tid p hj => absurd hj (hp _ _ _), fun tid p a s hj => absurd hj (hp _ _ _)⟩, h⟩
  | create | fork | join | exit => exact ⟨_, by exact trivial, h⟩

/-- Thread 2 has run to its end, and thread 1 joins it. -/
theorem no_use_after_free_exited : ∃ x : ThrRun, x.pc 2 = .gone ∧ x.pc 1 = .joining 2 true .lock ∧ x.Right := by
  have h₀ : Reach Init (Step Careful) booted := .start booted_init
  obtain ⟨x, hx, hp⟩ := h₀.script (l := starts 2 1 ++ .exit 2 7#32 :: go 2 14 ++ [.join 1 2 true])
    (p := fun x => x.pc 2 = .gone ∧ x.pc 1 = .joining 2 true .lock) actPlain_step (by decide +kernel)
  simp only [decide_eq_true_eq] at hp
  exact ⟨x, hp.1, hp.2, no_use_after_free hx⟩

/-- Threads 1 and 3 join thread 2 and look its TCB up; thread 2 has released the TCB's mutex when
thread 1 frees the TCB. Thread 2 has yet to read it, and thread 3 waits for its mutex for ever. -/
theorem tcb_used_after_free : ∃ x : ThrRun, Reach Init (Step fun _ _ => True) x ∧ x.cell 1 = .freed ∧
    x.touches 2 = [1] ∧ x.touches 3 = [1] ∧ x.exec 3 = none ∧ ¬ x.Right := by
  have h₀ : Reach Init (Step fun _ _ => True) booted := .start booted_init
  obtain ⟨x, hx, hp⟩ := h₀.script (l := starts 2 1 ++ starts 3 2 ++ .join 1 2 true :: go 1 3 ++ .join 3 2 true :: go 3 3 ++
      .exit 2 7#32 :: go 2 12 ++ go 1 8)
    (p := fun x => x.cell 1 = .freed ∧ x.touches 2 = [1] ∧ x.touches 3 = [1] ∧ (x.exec 3).isNone)
    (fun _ c _ hs => ⟨c, trivial, hs⟩) (by decide +kernel)
  simp only [decide_eq_true_eq, Option.isNone_iff_eq_none] at hp
  obtain ⟨hc, h2, h3, hn⟩ := hp
  exact ⟨x, hx, hc, h2, h3, hn, fun hr => hr.touches 2 1 (by simp [h2]) hc⟩

end ThrRun

end Pebbles.User
