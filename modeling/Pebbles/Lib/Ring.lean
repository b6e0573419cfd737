import Mathlib

/-!
# Rings of linked nodes

Circular doubly linked lists threaded through two tables of pointers. A ring is
read from its head by following `next`; `prev` leads back. The tables are
changed by joining two nodes, and rings that are linked through the same tables
and do not hold each other's heads have no node in common.
-/

namespace Ring

variable {α : Type*}

structure Links (α : Type*) where
  next : α → α
  prev : α → α

/-- Each node of the list is linked to the one after it. -/
def Path (L : Links α) (p : List α) : Prop := p.IsChain fun a b => L.next a = b ∧ L.prev b = a

/-- The nodes `l` are linked in this order from the head `h` and back to it. -/
structure IsRing (L : Links α) (h : α) (l : List α) : Prop where
  path : Path L (h :: l ++ [h])
  nodup : (h :: l).Nodup

instance [DecidableEq α] (L : Links α) (p : List α) : Decidable (Path L p) :=
  inferInstanceAs (Decidable (p.IsChain fun a b => L.next a = b ∧ L.prev b = a))

instance [DecidableEq α] (L : Links α) (h : α) (l : List α) : Decidable (IsRing L h l) :=
  decidable_of_iff (Path L (h :: l ++ [h]) ∧ (h :: l).Nodup) ⟨fun hr => ⟨hr.1, hr.2⟩, fun hr => ⟨hr.path, hr.nodup⟩⟩

section
variable {L L' : Links α} {a b c d h h' x : α} {l l' l₁ l₂ p q : List α}

theorem path_append : Path L (p ++ q) ↔ Path L p ∧ Path L q ∧
    ∀ a ∈ p.getLast?, ∀ b ∈ q.head?, L.next a = b ∧ L.prev b = a := List.isChain_append

theorem path_cons_cons : Path L (a :: b :: p) ↔ (L.next a = b ∧ L.prev b = a) ∧ Path L (b :: p) :=
    List.isChain_cons_cons

theorem Path.congr (hp : Path L p) (hn : ∀ y ∈ p.dropLast, L'.next y = L.next y)
    (hb : ∀ y ∈ p.tail, L'.prev y = L.prev y) : Path L' p := by
  induction p with
  | nil => exact List.isChain_nil
  | cons a p ih =>
    cases p with
    | nil => exact List.isChain_singleton a
    | cons b p =>
      obtain ⟨⟨h₁, h₂⟩, hrest⟩ := path_cons_cons.mp hp
      refine path_cons_cons.mpr ⟨⟨?_, ?_⟩, ih hrest ?_ ?_⟩
      · rw [hn a (by simp)]
        exact h₁
      · rw [hb b (by simp)]
        exact h₂
      · intro y hy
        exact hn y (by rw [List.dropLast_cons_cons]; exact List.mem_cons_of_mem a hy)
      · intro y hy
        exact hb y (List.mem_cons_of_mem b hy)

theorem IsRing.congr (hr : IsRing L h l) (hn : ∀ y ∈ h :: l, L'.next y = L.next y)
    (hb : ∀ y ∈ h :: l, L'.prev y = L.prev y) : IsRing L' h l := by
  refine ⟨hr.path.congr ?_ ?_, hr.nodup⟩
  · intro y hy
    rw [List.dropLast_concat] at hy
    exact hn y hy
  · intro y hy
    rw [List.cons_append, List.tail_cons, List.mem_append, List.mem_singleton] at hy
    cases hy with
    | inl hy => exact hb y (List.mem_cons_of_mem h hy)
    | inr hy => exact hb y (hy ▸ List.mem_cons_self)

def SameOff (S : List α) (L L' : Links α) : Prop := ∀ y ∉ S, L'.next y = L.next y ∧ L'.prev y = L.prev y

theorem SameOff.trans {S : List α} {L'' : Links α} (h₁ : SameOff S L L') (h₂ : SameOff S L' L'') : SameOff S L L'' :=
  fun y hy => ⟨(h₂ y hy).1.trans (h₁ y hy).1, (h₂ y hy).2.trans (h₁ y hy).2⟩

theorem SameOff.mono {S T : List α} (h : SameOff S L L') (hst : ∀ y ∈ S, y ∈ T) : SameOff T L L' :=
  fun y hy => h y fun hm => hy (hst y hm)

theorem IsRing.sameOff {S : List α} (hr : IsRing L h l) (hs : SameOff S L L') (hd : ∀ y ∈ h :: l, y ∉ S) :
    IsRing L' h l :=
  hr.congr (fun y hy => (hs y (hd y hy)).1) fun y hy => (hs y (hd y hy)).2

theorem isRing_nil : IsRing L h [] ↔ L.next h = h ∧ L.prev h = h := by
  refine ⟨fun hr => (path_cons_cons.mp hr.path).1, fun hp => ⟨path_cons_cons.mpr ⟨hp, List.isChain_singleton h⟩, ?_⟩⟩
  exact List.nodup_singleton h

theorem IsRing.next_head (hr : IsRing L h l) : L.next h = l.headD h := by
  cases l with
  | nil => exact (isRing_nil.mp hr).1
  | cons a l => exact (path_cons_cons.mp hr.path).1.1

theorem IsRing.next_mid (hr : IsRing L h (l₁ ++ x :: l₂)) : L.next x = l₂.headD h := by
  have hp : Path L ((h :: l₁) ++ (x :: l₂ ++ [h])) := by simpa using hr.path
  have hx := (path_append.mp hp).2.1
  cases l₂ with
  | nil => exact (path_cons_cons.mp hx).1.1
  | cons y l => exact (path_cons_cons.mp hx).1.1

theorem IsRing.next_first (hr : IsRing L h (x :: l)) : L.next x = l.headD h := 
  (show IsRing L h ([] ++ x :: l) from hr).next_mid

theorem IsRing.prev_head (hr : IsRing L h l) : L.prev h = (h :: l).getLast (by simp) := by
  have hp := (path_append.mp hr.path).2.2
  exact (hp _ (List.getLast_mem_getLast? (by simp)) h (by simp)).2

theorem IsRing.prev_mem (hr : IsRing L h l) : L.prev h ∈ h :: l := by
  rw [hr.prev_head]
  exact List.getLast_mem _

theorem IsRing.prev_mid (hr : IsRing L h (l₁ ++ l₂)) : (h :: l₁).getLast? = some (L.prev (l₂.headD h)) := by
  have hp : Path L ((h :: l₁) ++ (l₂ ++ [h])) := by simpa using hr.path
  have hne : h :: l₁ ≠ [] := by simp
  have hd : l₂.headD h ∈ (l₂ ++ [h]).head? := by cases l₂ <;> simp
  rw [((path_append.mp hp).2.2 _ (List.getLast_mem_getLast? hne) _ hd).2, List.getLast?_eq_some_getLast hne]

theorem IsRing.neighbours (hr : IsRing L h l) (hx : x ∈ l) : L.next x ∈ h :: l ∧ L.prev x ∈ h :: l := by
  obtain ⟨l₁, l₂, rfl⟩ := List.append_of_mem hx
  have hp : Path L ((h :: l₁) ++ (x :: (l₂ ++ [h]))) := by simpa using hr.path
  obtain ⟨-, hp₂, hlast⟩ := path_append.mp hp
  constructor
  · cases hq : l₂ ++ [h] with
    | nil => simp at hq
    | cons d q =>
      rw [hq] at hp₂
      rw [(path_cons_cons.mp hp₂).1.1]
      have hd : d ∈ l₂ ++ [h] := by simp [hq]
      simp only [List.mem_append, List.mem_singleton] at hd
      cases hd with
      | inl hd => simp [hd]
      | inr hd => simp [hd]
  · have hne : h :: l₁ ≠ [] := by simp
    rw [(hlast _ (List.getLast_mem_getLast? hne) x (by simp)).2]
    have := List.getLast_mem hne
    simp only [List.mem_cons] at this
    cases this with
    | inl e => simp [e]
    | inr e => simp [e]

theorem IsRing.head_notMem (hr : IsRing L h l) : h ∉ l := (List.nodup_cons.mp hr.nodup).1

/-- From one node the pointers lead along one path: two paths that start there
and end at heads that they pass only at the end are the same. -/
theorem Path.unique (hp : Path L (a :: p ++ [h])) (hq : Path L (a :: q ++ [h'])) (hpq : h' ∉ p) (hqp : h ∉ q) :
    p = q ∧ h = h' := by
  induction p generalizing a q with
  | nil =>
    have hn := (path_cons_cons.mp hp).1.1
    cases q with
    | nil => exact ⟨rfl, hn.symm.trans (path_cons_cons.mp hq).1.1⟩
    | cons b q => exact absurd (hn.symm.trans (path_cons_cons.mp hq).1.1) fun e => hqp (e ▸ List.mem_cons_self)
  | cons b p ih =>
    obtain ⟨⟨hn, -⟩, hp⟩ := path_cons_cons.mp hp
    cases q with
    | nil => exact absurd (hn.symm.trans (path_cons_cons.mp hq).1.1) fun e => hpq (e ▸ List.mem_cons_self)
    | cons c q =>
      obtain ⟨⟨hn', -⟩, hq⟩ := path_cons_cons.mp hq
      obtain rfl : b = c := hn.symm.trans hn'
      obtain ⟨rfl, he⟩ := ih hp hq (fun hm => hpq (List.mem_cons_of_mem b hm)) fun hm => hqp (List.mem_cons_of_mem b hm)
      exact ⟨rfl, he⟩

theorem IsRing.unique (hr : IsRing L h l) (hr' : IsRing L h l') : l = l' :=
  (Path.unique hr.path hr'.path hr.head_notMem hr'.head_notMem).1

theorem IsRing.suffix (hr : IsRing L h l) (hx : x ∈ l) : ∃ l₂, (∀ y ∈ l₂, y ∈ l) ∧ Path L (x :: l₂ ++ [h]) := by
  obtain ⟨l₁, l₂, rfl⟩ := List.append_of_mem hx
  refine ⟨l₂, fun y hy => by simp [hy], ?_⟩
  have hp : Path L ((h :: l₁) ++ (x :: l₂ ++ [h])) := by simpa using hr.path
  exact (path_append.mp hp).2.1

theorem IsRing.disjoint (hr : IsRing L h l) (hr' : IsRing L h' l') (hne : h ≠ h') (h₁ : h' ∉ l) (h₂ : h ∉ l')
    (hx : x ∈ l) : x ∉ l' := by
  intro hx'
  obtain ⟨p, hpl, hp⟩ := hr.suffix hx
  obtain ⟨q, hql, hq⟩ := hr'.suffix hx'
  exact hne (Path.unique hp hq (fun hm => h₁ (hpl _ hm)) fun hm => h₂ (hql _ hm)).2

end

/-! ## Joining two nodes -/

section
variable [DecidableEq α] {L : Links α} {a b c d h h₁ h₂ x : α} {l l₁ l₂ p q : List α}

def Links.join (L : Links α) (c d : α) : Links α where
  next := Function.update L.next c d
  prev := Function.update L.prev d c

theorem join_next_self : (L.join c d).next c = d := Function.update_self ..

theorem join_prev_self : (L.join c d).prev d = c := Function.update_self ..

theorem join_next_of_ne (hx : x ≠ c) : (L.join c d).next x = L.next x := Function.update_of_ne hx ..

theorem join_prev_of_ne (hx : x ≠ d) : (L.join c d).prev x = L.prev x := Function.update_of_ne hx ..

theorem Path.join_frame (hp : Path L p) (hc : c ∉ p.dropLast) (hd : d ∉ p.tail) : Path (L.join c d) p :=
  hp.congr (fun _ hy => join_next_of_ne (ne_of_mem_of_not_mem hy hc)) fun _ hy =>
    join_prev_of_ne (ne_of_mem_of_not_mem hy hd)

/-- Joining the end of one path to the start of another makes one path, when no
node stands twice on it except that the last may be the first. -/
theorem Path.join (hp : Path L (p ++ [c])) (hq : Path L (d :: q)) (h₁ : (p ++ c :: (d :: q).dropLast).Nodup)
    (h₂ : ((p ++ [c]).tail ++ d :: q).Nodup) : Path (L.join c d) ((p ++ [c]) ++ d :: q) := by
  obtain ⟨-, hc, hpc⟩ := List.nodup_append.mp h₁
  obtain ⟨-, hd, hpd⟩ := List.nodup_append.mp h₂
  refine path_append.mpr ⟨hp.join_frame ?_ ?_, hq.join_frame (List.nodup_cons.mp hc).1 (List.nodup_cons.mp hd).1, ?_⟩
  · rw [List.dropLast_concat]
    exact fun hm => hpc c hm c List.mem_cons_self rfl
  · exact fun hm => hpd d hm d List.mem_cons_self rfl
  · intro a ha b hb
    simp only [List.getLast?_append, List.getLast?_singleton, Option.some_or, Option.mem_some_iff,
      List.head?_cons] at ha hb
    subst ha hb
    exact ⟨join_next_self, join_prev_self⟩

theorem sameOff_join {S : List α} (hc : c ∈ S) (hd : d ∈ S) : SameOff S L (L.join c d) := by
  intro y hy
  exact ⟨join_next_of_ne fun e => hy (e ▸ hc), join_prev_of_ne fun e => hy (e ▸ hd)⟩

theorem isRing_join (hp : Path L (h :: l₁)) (hc : (h :: l₁).getLast? = some c) (hq : Path L (l₂ ++ [h]))
    (hd : (l₂ ++ [h]).head? = some d) (hnd : (h :: (l₁ ++ l₂)).Nodup) : IsRing (L.join c d) h (l₁ ++ l₂) := by
  obtain ⟨p, hpc⟩ : ∃ p, h :: l₁ = p ++ [c] := List.getLast?_eq_some_iff.mp hc
  obtain ⟨q, hqd⟩ : ∃ q, l₂ ++ [h] = d :: q := List.head?_eq_some_iff.mp hd
  refine ⟨?_, hnd⟩
  have hsplit : h :: (l₁ ++ l₂) ++ [h] = (p ++ [c]) ++ d :: q := by
    rw [← hpc, ← hqd]
    simp
  have hdrop : (d :: q).dropLast = l₂ := by rw [← hqd, List.dropLast_concat]
  have htail : (p ++ [c]).tail = l₁ := by rw [← hpc, List.tail_cons]
  rw [hsplit]
  refine Path.join (hpc ▸ hp) (hqd ▸ hq) ?_ ?_
  · rw [hdrop, List.append_cons, ← hpc]
    exact hnd
  · obtain ⟨hh, hl⟩ := List.nodup_cons.mp hnd
    rw [htail, ← hqd, ← List.append_assoc]
    exact List.nodup_append.mpr ⟨hl, List.nodup_singleton h, fun a ha b hb e =>
      hh (List.mem_singleton.mp hb ▸ e ▸ ha)⟩

theorem IsRing.remove (hr : IsRing L h (l₁ ++ x :: l₂)) : IsRing (L.join (L.prev x) (L.next x)) h (l₁ ++ l₂) := by
  have hp : Path L ((h :: l₁) ++ x :: (l₂ ++ [h])) := by simpa using hr.path
  obtain ⟨hp₁, hp₂, hlast⟩ := path_append.mp hp
  obtain ⟨hq, hnext⟩ : Path L (l₂ ++ [h]) ∧ (l₂ ++ [h]).head? = some (L.next x) := by
    cases hq : l₂ ++ [h] with
    | nil => simp at hq
    | cons d q =>
      rw [hq] at hp₂
      obtain ⟨⟨hn, -⟩, hq⟩ := path_cons_cons.mp hp₂
      exact ⟨hq, by rw [hn]; rfl⟩
  have hprev : (h :: l₁).getLast? = some (L.prev x) := by
    have hne : h :: l₁ ≠ [] := by simp
    rw [(hlast _ (List.getLast_mem_getLast? hne) x (by simp)).2, List.getLast?_eq_some_getLast hne]
  refine isRing_join hp₁ hprev hq hnext (hr.nodup.sublist ?_)
  exact List.Sublist.cons_cons h (List.Sublist.append_left (List.sublist_cons_self x l₂) l₁)

theorem IsRing.insert (hr : IsRing L h (l₁ ++ l₂)) (hx : x ∉ h :: (l₁ ++ l₂)) :
    IsRing ((L.join (L.prev (l₂.headD h)) x).join x (l₂.headD h)) h (l₁ ++ x :: l₂) := by
  have hlast := hr.prev_mid
  have hp : Path L ((h :: l₁) ++ (l₂ ++ [h])) := by simpa using hr.path
  obtain ⟨hp₁, hp₂, -⟩ := path_append.mp hp
  obtain ⟨p, hpc⟩ : ∃ p, h :: l₁ = p ++ [L.prev (l₂.headD h)] := List.getLast?_eq_some_iff.mp hlast
  have hx₁ : x ∉ h :: l₁ := fun hm => hx (by rw [← List.cons_append]; exact List.mem_append_left l₂ hm)
  have hnd : (h :: l₁ ++ [x]).Nodup := List.nodup_append.mpr
    ⟨hr.nodup.sublist ((List.sublist_append_left l₁ l₂).cons_cons h), List.nodup_singleton x,
      fun a ha b hb e => hx₁ (List.mem_singleton.mp hb ▸ e ▸ ha)⟩
  have hnd' : (h :: ((l₁ ++ [x]) ++ l₂)).Nodup := by
    have hperm : (h :: l₁ ++ x :: l₂).Perm (x :: (h :: l₁ ++ l₂)) := List.perm_middle
    rw [List.append_assoc, List.singleton_append]
    exact hperm.nodup_iff.mpr (List.nodup_cons.mpr ⟨hx, hr.nodup⟩)
  have hpath : Path (L.join (L.prev (l₂.headD h)) x) (h :: (l₁ ++ [x])) := by
    rw [← List.cons_append, hpc]
    refine Path.join (hpc ▸ hp₁) (List.isChain_singleton x) ?_ ?_
    · rw [List.dropLast_singleton, ← hpc]
      exact hr.nodup.sublist ((List.sublist_append_left l₁ l₂).cons_cons h)
    · rw [← hpc, List.tail_cons]
      exact (List.nodup_cons.mp hnd).2
  have hrest : Path (L.join (L.prev (l₂.headD h)) x) (l₂ ++ [h]) := by
    refine hp₂.join_frame ?_ ?_
    · rw [List.dropLast_concat]
      intro hm
      have hl := List.mem_of_getLast? hlast
      have hdisj := (List.nodup_append.mp (List.cons_append ▸ hr.nodup : (h :: l₁ ++ l₂).Nodup)).2.2
      exact hdisj _ hl _ hm rfl
    · intro hm
      have hm' := List.mem_of_mem_tail hm
      refine hx ?_
      simp only [List.mem_append, List.mem_cons, List.not_mem_nil, or_false] at hm' ⊢
      tauto
  have hx₂ : (h :: (l₁ ++ [x])).getLast? = some x := by
    rw [← List.cons_append]
    exact List.getLast?_concat
  have hd : (l₂ ++ [h]).head? = some (l₂.headD h) := by cases l₂ <;> rfl
  have hring := isRing_join hpath hx₂ hrest hd hnd'
  rwa [List.append_assoc, List.singleton_append] at hring

theorem IsRing.append (hr : IsRing L h l) (hq : Path L (x :: q)) (hd : (x :: q).getLast? = some d)
    (hnd : (h :: (l ++ x :: q)).Nodup) : IsRing ((L.join (L.prev h) x).join d h) h (l ++ x :: q) := by
  obtain ⟨p, hpc⟩ : ∃ p, h :: l = p ++ [L.prev h] := by
    refine List.getLast?_eq_some_iff.mp ?_
    rw [hr.prev_head, List.getLast?_eq_some_getLast]
  have hpath : Path (L.join (L.prev h) x) (h :: l ++ x :: q) := by
    rw [hpc]
    refine Path.join (hpc ▸ (path_append.mp hr.path).1) hq ?_ ?_
    · rw [List.append_cons, ← hpc]
      exact hnd.sublist (List.Sublist.append_left (List.dropLast_sublist _) _)
    · rw [← hpc, List.tail_cons]
      exact (List.nodup_cons.mp hnd).2
  have : IsRing ((L.join (L.prev h) x).join d h) h ((l ++ x :: q) ++ []) :=
    isRing_join hpath ?_ (List.isChain_singleton h) rfl (by simpa using hnd)
  · simpa using this
  · rw [← List.cons_append, List.getLast?_append, hd]
    rfl

end

/-! ## Families of rings -/

/-- The heads `H` have the rings `ls`, and no head is a node of a ring. -/
structure Rings (L : Links α) (H : Set α) (ls : α → List α) : Prop where
  ring : ∀ h ∈ H, IsRing L h (ls h)
  apart : ∀ h ∈ H, ∀ h' ∈ H, h' ∉ ls h

section
variable {L L' : Links α} {H : Set α} {ls : α → List α} {h h' x : α}

theorem Rings.same (hr : Rings L H ls) (hh : h ∈ H) (hh' : h' ∈ H) (hx : x ∈ ls h) (hx' : x ∈ ls h') : h = h' := by
  by_contra hne
  exact (hr.ring h hh).disjoint (hr.ring h' hh') hne (hr.apart h hh h' hh') (hr.apart h' hh' h hh) hx hx'

theorem Rings.notMem (hr : Rings L H ls) (hh : h ∈ H) (hh' : h' ∈ H) (hne : h' ≠ h) {y : α} (hy : y ∈ h' :: ls h') :
    y ∉ h :: ls h := by
  simp only [List.mem_cons] at hy ⊢
  rintro (rfl | hm)
  · cases hy with
    | inl e => exact hne e.symm
    | inr hy => exact hr.apart h' hh' y hh hy
  · cases hy with
    | inl e => exact hr.apart h hh h' hh' (e ▸ hm)
    | inr hy => exact hne (hr.same hh' hh hy hm)

theorem Rings.mono {H' : Set α} (hr : Rings L H ls) (hs : H' ⊆ H) : Rings L H' ls :=
  ⟨fun h hh => hr.ring h (hs hh), fun h hh h' hh' => hr.apart h (hs hh) h' (hs hh')⟩

theorem Rings.congr {ls' : α → List α} (hr : Rings L H ls) (he : ∀ h ∈ H, ls' h = ls h) : Rings L H ls' :=
  ⟨fun h hh => by rw [he h hh]; exact hr.ring h hh, fun h hh h' hh' => by rw [he h hh]; exact hr.apart h hh h' hh'⟩

theorem Rings.update [DecidableEq α] {S l : List α} (hr : Rings L H ls) (hring : IsRing L' h l) (hs : SameOff S L L')
    (hS : ∀ h' ∈ H, h' ≠ h → ∀ y ∈ h' :: ls h', y ∉ S) (hl : ∀ h' ∈ H, h' ∉ l) (hh : ∀ h' ∈ H, h' ≠ h → h ∉ ls h') :
    Rings L' (insert h H) (Function.update ls h l) := by
  constructor
  · intro h' hm
    by_cases e : h' = h
    · rw [e, Function.update_self]
      exact hring
    · have hm := hm.resolve_left e
      rw [Function.update_of_ne e]
      exact (hr.ring h' hm).sameOff hs (hS h' hm e)
  · intro h₁ hm₁ h₂ hm₂
    by_cases e₁ : h₁ = h
    · rw [e₁, Function.update_self]
      cases hm₂ with
      | inl e => exact e ▸ hring.head_notMem
      | inr hm => exact hl h₂ hm
    · have hm₁ := hm₁.resolve_left e₁
      rw [Function.update_of_ne e₁]
      cases hm₂ with
      | inl e => exact e ▸ hh h₁ hm₁ e₁
      | inr hm => exact hr.apart h₁ hm₁ h₂ hm

end

/-! ## Pointers that stay in a set -/

def Closed (S : Set α) (L : Links α) : Prop := ∀ n ∈ S, L.next n ∈ S ∧ L.prev n ∈ S

structure Within (S : Set α) (L L' : Links α) : Prop where
  closed : Closed S L'
  same : ∀ n ∉ S, L'.next n = L.next n ∧ L'.prev n = L.prev n

section
variable {S T : Set α} {L L' L'' : Links α} {h : α}

theorem Within.refl (hc : Closed S L) : Within S L L := ⟨hc, fun _ _ => ⟨rfl, rfl⟩⟩

theorem Within.trans (h₁ : Within S L L') (h₂ : Within T L' L'') (hst : S ⊆ T) : Within T L L'' := by
  refine ⟨h₂.closed, fun n hn => ?_⟩
  obtain ⟨hn₁, hp₁⟩ := h₁.same n fun hm => hn (hst hm)
  obtain ⟨hn₂, hp₂⟩ := h₂.same n hn
  exact ⟨hn₂.trans hn₁, hp₂.trans hp₁⟩

theorem Within.ring {l : List α} (hw : Within S L L') (hr : IsRing L h l) (hd : ∀ y ∈ h :: l, y ∉ S) : IsRing L' h l :=
  hr.congr (fun y hy => (hw.same y (hd y hy)).1) fun y hy => (hw.same y (hd y hy)).2

theorem Closed.sameOff {l : List α} (hc : Closed S L) (hs : SameOff l L L') (hd : ∀ n ∈ l, n ∉ S) : Closed S L' := by
  intro n hn
  obtain ⟨hnext, hprev⟩ := hs n fun hm => hd n hm hn
  rw [hnext, hprev]
  exact hc n hn

end

end Ring
