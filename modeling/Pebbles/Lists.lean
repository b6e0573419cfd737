import Pebbles.Lib.Ring

/-!
# Intrusive lists

The functions of `list.c`. A list is the ring of its head; each function is
shown to do on rings what it is for, and to change no pointer of another ring.
-/

namespace Pebbles

open Ring

variable {α : Type} [DecidableEq α]

def setNext (a b : α) (L : Links α) : Links α := { L with next := Function.update L.next a b }

def setPrev (a b : α) (L : Links α) : Links α := { L with prev := Function.update L.prev a b }

def initHead (head : α) (L : Links α) : Links α := setPrev head head (setNext head head L)

def addToList (newNode prev next : α) (L : Links α) : Links α :=
  let L := setNext newNode next L
  let L := setPrev newNode prev L
  let L := setNext prev newNode L
  setPrev next newNode L

def addToTail (newNode head : α) (L : Links α) : Links α := addToList newNode (L.prev head) head L

def addToHead (newNode head : α) (L : Links α) : Links α := addToList newNode head (L.next head) L

def delEntry (node : α) (L : Links α) : Links α :=
  let L := setNext (L.prev node) (L.next node) L
  setPrev (L.next node) (L.prev node) L

def getFirst (head : α) (L : Links α) : Option α := if L.next head = head then none else some (L.next head)

def getLast (head : α) (L : Links α) : Option α := if L.prev head = head then none else some (L.prev head)

def concatLists (firstListHead secondListHead : α) (L : Links α) : Links α :=
  match getFirst firstListHead L, getLast firstListHead L, getFirst secondListHead L, getLast secondListHead L with
  | none, _, some headTwo, some tailTwo =>
    let L := setNext firstListHead headTwo L
    let L := setPrev firstListHead tailTwo L
    let L := setPrev headTwo firstListHead L
    let L := setNext tailTwo firstListHead L
    initHead secondListHead L
  | some _, some tailOne, some headTwo, some tailTwo =>
    let L := setNext tailOne headTwo L
    let L := setPrev headTwo tailOne L
    let L := setNext tailTwo firstListHead L
    setPrev firstListHead tailTwo L
  -- nothing to add
  | _, _, _, _ => L

/-- The loops that start at the first node and go on to `next` until they are
back at the head. The pointer is read before `f`, which may remove the node.
`none`: `f` has no result, or the walk does not come back. -/
def forEach {σ : Type} (links : σ → Links α) (head : α) (f : α → σ → Option σ) : Nat → α → σ → Option σ
  | n, node, s =>
    if node = head then some s
    else
      match n with
      | 0 => none
      | n + 1 => (f node s).bind (forEach links head f n ((links s).next node))

section
variable {L : Links α} {n h h₁ h₂ : α} {l l₁ l₂ : List α}

theorem forEach_rule {σ : Type} (links : σ → Links α) {f : α → σ → Option σ} {P : List α → σ → Prop}
    (hP : ∀ x l s, P (x :: l) s → x ≠ h ∧ (links s).next x = l.headD h ∧ ∃ s', f x s = some s' ∧ P l s') :
    ∀ l n s, l.length ≤ n → P l s → ∃ s', forEach links h f n (l.headD h) s = some s' ∧ P [] s' := by
  intro l
  induction l with
  | nil =>
    intro n s _ hs
    refine ⟨s, ?_, hs⟩
    unfold forEach
    exact if_pos rfl
  | cons x l ih =>
    intro n s hn hs
    obtain ⟨hx, hnext, s₁, hf, hs₁⟩ := hP x l s hs
    cases n with
    | zero => simp at hn
    | succ n =>
      obtain ⟨s', hr, hs'⟩ := ih n s₁ (by simpa using hn) hs₁
      refine ⟨s', ?_, hs'⟩
      unfold forEach
      rw [List.headD_cons, if_neg hx]
      dsimp only
      rw [hf, Option.bind_some, hnext]
      exact hr

theorem getFirst_eq (hr : IsRing L h l) : getFirst h L = l.head? := by
  unfold getFirst
  rw [hr.next_head]
  cases l with
  | nil => exact if_pos rfl
  | cons a l =>
    have hne : a ≠ h := fun e => hr.head_notMem (e ▸ List.mem_cons_self)
    exact if_neg hne

theorem getLast_eq (hr : IsRing L h l) : getLast h L = l.getLast? := by
  unfold getLast
  rw [hr.prev_head]
  cases l with
  | nil => exact if_pos rfl
  | cons a l =>
    have hl : (h :: a :: l).getLast (by simp) = (a :: l).getLast (by simp) := List.getLast_cons _
    have hm : (a :: l).getLast (by simp) ∈ a :: l := List.getLast_mem _
    rw [hl, List.getLast?_eq_some_getLast (by simp)]
    exact if_neg (ne_of_mem_of_not_mem hm hr.head_notMem)

theorem initHead_ring (h : α) (L : Links α) : IsRing (initHead h L) h [] :=
  isRing_nil.mpr ⟨Function.update_self .., Function.update_self ..⟩

theorem initHead_sameOff (h : α) (L : Links α) : SameOff [h] L (initHead h L) := by
  intro y hy
  have hy : y ≠ h := by simpa using hy
  exact ⟨Function.update_of_ne hy .., Function.update_of_ne hy ..⟩

theorem addToList_eq {p : α} (hn : n ≠ p) : addToList n p h L = (L.join p n).join n h := by
  simp only [addToList, Links.join, setNext, setPrev, Links.mk.injEq, and_true]
  exact Function.update_comm hn ..

section
variable (hr : IsRing L h (l₁ ++ l₂)) (hn : n ∉ h :: (l₁ ++ l₂))
include hr hn

theorem addToList_joins :
    addToList n (L.prev (l₂.headD h)) (l₂.headD h) L = (L.join (L.prev (l₂.headD h)) n).join n (l₂.headD h) := by
  refine addToList_eq fun e => hn ?_
  rw [e, ← List.cons_append]
  exact List.mem_append_left l₂ (List.mem_of_getLast? hr.prev_mid)

theorem addToList_ring : IsRing (addToList n (L.prev (l₂.headD h)) (l₂.headD h) L) h (l₁ ++ n :: l₂) := by
  rw [addToList_joins hr hn]
  exact hr.insert hn

theorem addToList_sameOff :
    SameOff (n :: h :: (l₁ ++ l₂)) L (addToList n (L.prev (l₂.headD h)) (l₂.headD h) L) := by
  have hp : L.prev (l₂.headD h) ∈ n :: h :: (l₁ ++ l₂) := by
    rw [← List.cons_append, ← List.cons_append]
    exact List.mem_append_left l₂ (List.mem_cons_of_mem n (List.mem_of_getLast? hr.prev_mid))
  have hd : l₂.headD h ∈ n :: h :: (l₁ ++ l₂) := by cases l₂ <;> simp
  rw [addToList_joins hr hn]
  exact (sameOff_join hp (by simp)).trans (sameOff_join (by simp) hd)

end

section
variable (hr : IsRing L h l) (hn : n ∉ h :: l)
include hr hn

theorem addToTail_ring : IsRing (addToTail n h L) h (l ++ [n]) := by
  rw [← List.append_nil l] at hr hn
  exact addToList_ring hr hn

theorem addToTail_sameOff : SameOff (n :: h :: l) L (addToTail n h L) := by
  rw [← List.append_nil l] at hr hn ⊢
  exact addToList_sameOff hr hn

end

theorem delEntry_eq (n : α) (L : Links α) : delEntry n L = L.join (L.prev n) (L.next n) := by
  have hn : Function.update L.next (L.prev n) (L.next n) n = L.next n := by
    by_cases e : n = L.prev n
    · rw [← e, Function.update_self]
    · exact Function.update_of_ne e ..
  simp only [delEntry, Links.join, setNext, setPrev, hn]

theorem delEntry_ring (hr : IsRing L h (l₁ ++ n :: l₂)) : IsRing (delEntry n L) h (l₁ ++ l₂) := by
  rw [delEntry_eq]
  exact hr.remove

theorem delEntry_sameOff (hr : IsRing L h l) (hn : n ∈ l) : SameOff (h :: l) L (delEntry n L) := by
  rw [delEntry_eq]
  exact sameOff_join (hr.neighbours hn).2 (hr.neighbours hn).1

theorem concatLists_to_nil {x d : α} {q : List α} (hr₁ : IsRing L h₁ []) (hr₂ : IsRing L h₂ (x :: q))
    (hd : (x :: q).getLast? = some d) (hx : x ≠ h₁) :
    concatLists h₁ h₂ L = initHead h₂ ((L.join (L.prev h₁) x).join d h₁) := by
  have hp : L.prev h₁ = h₁ := (isRing_nil.mp hr₁).2
  unfold concatLists
  rw [getFirst_eq hr₁, getLast_eq hr₁, getFirst_eq hr₂, getLast_eq hr₂, hd]
  simp only [List.head?_nil, List.head?_cons, setNext, setPrev, Links.join, hp]
  rw [Function.update_comm hx]

theorem concatLists_to_cons {a x d : α} {q : List α} (hr₁ : IsRing L h₁ (a :: l₁)) (hr₂ : IsRing L h₂ (x :: q))
    (hd : (x :: q).getLast? = some d) : concatLists h₁ h₂ L = (L.join (L.prev h₁) x).join d h₁ := by
  have hlast : (h₁ :: a :: l₁).getLast (by simp) = (a :: l₁).getLast (by simp) := List.getLast_cons _
  unfold concatLists
  rw [getFirst_eq hr₁, getLast_eq hr₁, getFirst_eq hr₂, getLast_eq hr₂, hd, List.getLast?_eq_some_getLast (by simp),
    hr₁.prev_head, hlast]
  rfl

theorem concatLists_eq {x d : α} {q : List α} (hr₁ : IsRing L h₁ l₁) (hr₂ : IsRing L h₂ (x :: q))
    (hd : (x :: q).getLast? = some d) (hne : h₁ ∉ h₂ :: x :: q) :
    concatLists h₁ h₂ L = (L.join (L.prev h₁) x).join d h₁ ∨
      concatLists h₁ h₂ L = initHead h₂ ((L.join (L.prev h₁) x).join d h₁) := by
  cases l₁ with
  | nil =>
    have hx : x ≠ h₁ := fun e => hne (e ▸ by simp)
    exact .inr (concatLists_to_nil hr₁ hr₂ hd hx)
  | cons a l₁ => exact .inl (concatLists_to_cons hr₁ hr₂ hd)

theorem concatLists_nil (hr₂ : IsRing L h₂ []) (h₁ : α) : concatLists h₁ h₂ L = L := by
  unfold concatLists
  rw [getFirst_eq hr₂]
  split <;> simp_all

theorem concatLists_ring (hr₁ : IsRing L h₁ l₁) (hr₂ : IsRing L h₂ l₂) (hne : h₁ ≠ h₂) (hm₁ : h₁ ∉ l₂) (hm₂ : h₂ ∉ l₁) :
    IsRing (concatLists h₁ h₂ L) h₁ (l₁ ++ l₂) := by
  cases l₂ with
  | nil =>
    rw [concatLists_nil hr₂, List.append_nil]
    exact hr₁
  | cons x q =>
    obtain ⟨d, hd⟩ : ∃ d, (x :: q).getLast? = some d := ⟨_, List.getLast?_eq_some_getLast (by simp)⟩
    have hdisj : ∀ y ∈ l₁, y ∉ x :: q := fun y hy => hr₁.disjoint hr₂ hne hm₂ hm₁ hy
    have hnd : (h₁ :: (l₁ ++ x :: q)).Nodup := by
      obtain ⟨h, hn⟩ := List.nodup_cons.mp hr₁.nodup
      refine List.nodup_cons.mpr ⟨?_, ?_⟩
      · rw [List.mem_append]
        exact not_or.mpr ⟨h, hm₁⟩
      · exact List.nodup_append.mpr ⟨hn, (List.nodup_cons.mp hr₂.nodup).2, fun a ha b hb e => hdisj a ha (e ▸ hb)⟩
    have hpath : Path L (x :: q) := (path_cons_cons.mp (path_append.mp hr₂.path).1).2
    have hring := hr₁.append hpath hd hnd
    cases concatLists_eq hr₁ hr₂ hd (List.not_mem_cons_of_ne_of_not_mem hne hm₁) with
    | inl he =>
      rw [he]
      exact hring
    | inr he =>
      rw [he]
      refine hring.sameOff (initHead_sameOff h₂ _) ?_
      intro y hy
      rw [List.mem_singleton]
      rintro rfl
      rw [List.mem_cons, List.mem_append] at hy
      obtain hy | hy | hy := hy
      · exact hne hy.symm
      · exact hm₂ hy
      · exact hr₂.head_notMem hy

theorem concatLists_sameOff (hr₁ : IsRing L h₁ l₁) (hr₂ : IsRing L h₂ l₂) (hne : h₁ ≠ h₂) (hm₁ : h₁ ∉ l₂) :
    SameOff (h₁ :: l₁ ++ h₂ :: l₂) L (concatLists h₁ h₂ L) := by
  cases l₂ with
  | nil =>
    rw [concatLists_nil hr₂]
    exact fun _ _ => ⟨rfl, rfl⟩
  | cons x q =>
    obtain ⟨d, hd⟩ : ∃ d, (x :: q).getLast? = some d := ⟨_, List.getLast?_eq_some_getLast (by simp)⟩
    have hdm : d ∈ x :: q := List.mem_of_getLast? hd
    have hpm := hr₁.prev_mem
    have hs : SameOff (h₁ :: l₁ ++ h₂ :: x :: q) L ((L.join (L.prev h₁) x).join d h₁) :=
      (sameOff_join (List.mem_append_left _ hpm) (by simp)).trans
        (sameOff_join (List.mem_append_right _ (List.mem_cons_of_mem h₂ hdm)) (by simp))
    cases concatLists_eq hr₁ hr₂ hd (List.not_mem_cons_of_ne_of_not_mem hne hm₁) with
    | inl he => exact he ▸ hs
    | inr he => exact he ▸ hs.trans ((initHead_sameOff h₂ _).mono (by simp))

end

/-! ## Families of lists -/

section
variable {L : Links α} {H : Set α} {ls : α → List α} {n h h₁ h₂ : α}

theorem initHead_rings (hr : Rings L H ls) (hn : ∀ h' ∈ H, h ∉ ls h') :
    Rings (initHead h L) (insert h H) (Function.update ls h []) := by
  refine hr.update (initHead_ring h L) (initHead_sameOff h L) ?_ (by simp) fun h' hm _ => hn h' hm
  intro h' hm hne y hy
  rw [List.mem_singleton]
  rintro rfl
  cases List.mem_cons.mp hy with
  | inl e => exact hne e.symm
  | inr hy => exact hn h' hm hy

theorem addToList_rings {l₁ l₂ : List α} (hr : Rings L H ls) (hh : h ∈ H) (hl : ls h = l₁ ++ l₂) (hn : n ∉ H)
    (hnl : ∀ h' ∈ H, n ∉ ls h') :
    Rings (addToList n (L.prev (l₂.headD h)) (l₂.headD h) L) H (Function.update ls h (l₁ ++ n :: l₂)) := by
  have hne : ∀ h' ∈ H, n ≠ h' := fun h' hm e => hn (e ▸ hm)
  have hring : IsRing L h (l₁ ++ l₂) := hl ▸ hr.ring h hh
  have hnr : n ∉ h :: (l₁ ++ l₂) := hl ▸ List.not_mem_cons_of_ne_of_not_mem (hne h hh) (hnl h hh)
  have hnew := hr.update (addToList_ring hring hnr) (addToList_sameOff hring hnr) ?_ ?_ ?_
  · rwa [Set.insert_eq_of_mem hh] at hnew
  · intro h' hm e y hy
    refine List.not_mem_cons_of_ne_of_not_mem ?_ (hl ▸ hr.notMem hh hm e hy)
    rintro rfl
    cases List.mem_cons.mp hy with
    | inl e => exact hne h' hm e
    | inr hy => exact hnl h' hm hy
  · intro h' hm hx
    obtain rfl | hx := List.mem_cons.mp (List.perm_middle.mem_iff.mp hx)
    · exact hn hm
    · exact hr.apart h hh h' hm (hl ▸ hx)
  · exact fun h' hm _ => hr.apart h' hm h hh

theorem addToTail_rings (hr : Rings L H ls) (hh : h ∈ H) (hn : n ∉ H) (hnl : ∀ h' ∈ H, n ∉ ls h') :
    Rings (addToTail n h L) H (Function.update ls h (ls h ++ [n])) :=
  addToList_rings hr hh (List.append_nil (ls h)).symm hn hnl

theorem delEntry_rings (hr : Rings L H ls) (hh : h ∈ H) (hn : n ∈ ls h) :
    Rings (delEntry n L) H (Function.update ls h ((ls h).erase n)) := by
  have hring : IsRing (delEntry n L) h ((ls h).erase n) := by
    have hr₁ := hr.ring h hh
    obtain ⟨l₁, l₂, he⟩ := List.append_of_mem hn
    rw [he] at hr₁ ⊢
    have hnd := (List.nodup_append.mp (List.nodup_cons.mp hr₁.nodup).2).2.2
    rw [List.erase_append_right _ fun hm => hnd n hm n List.mem_cons_self rfl, List.erase_cons_head]
    exact delEntry_ring hr₁
  have hnew := hr.update hring (delEntry_sameOff (hr.ring h hh) hn) (fun h' hm e y hy => hr.notMem hh hm e hy) ?_ ?_
  · rwa [Set.insert_eq_of_mem hh] at hnew
  · exact fun h' hm hx => hr.apart h hh h' hm (List.mem_of_mem_erase hx)
  · exact fun h' hm _ => hr.apart h' hm h hh

theorem concatLists_rings (hr : Rings L H ls) (hh₁ : h₁ ∈ H) (hh₂ : h₂ ∈ H) (hne : h₁ ≠ h₂) :
    Rings (concatLists h₁ h₂ L) (H \ {h₂}) (Function.update ls h₁ (ls h₁ ++ ls h₂)) := by
  have hm₁ := hr.apart h₂ hh₂ h₁ hh₁
  have hm₂ := hr.apart h₁ hh₁ h₂ hh₂
  have hr₁ := hr.ring h₁ hh₁
  have hr₂ := hr.ring h₂ hh₂
  have hnew := (hr.mono (Set.sdiff_subset : H \ {h₂} ⊆ H)).update (concatLists_ring hr₁ hr₂ hne hm₁ hm₂)
    (concatLists_sameOff hr₁ hr₂ hne hm₁) ?_ ?_ ?_
  · rwa [Set.insert_eq_of_mem (show h₁ ∈ H \ {h₂} from ⟨hh₁, hne⟩)] at hnew
  · intro h' hm e y hy
    rw [List.mem_append, not_or]
    exact ⟨hr.notMem hh₁ hm.1 e hy, hr.notMem hh₂ hm.1 hm.2 hy⟩
  · intro h' hm
    rw [List.mem_append, not_or]
    exact ⟨hr.apart h₁ hh₁ h' hm.1, hr.apart h₂ hh₂ h' hm.1⟩
  · exact fun h' hm _ => hr.apart h' hm.1 h₁ hh₁

end

/-! ## Pointers that stay in a set

Where lists are not known to be rings, the functions still keep to the nodes that
the pointers lead to.
-/

section
variable {S : Set α} {L : Links α} {n h h₁ h₂ a b : α}

theorem setNext_within (hc : Closed S L) (ha : a ∈ S) (hb : b ∈ S) : Within S L (setNext a b L) := by
  refine ⟨fun n hn => ⟨?_, (hc n hn).2⟩, fun n hn => ⟨Function.update_of_ne (ne_of_mem_of_not_mem ha hn).symm .., rfl⟩⟩
  by_cases e : n = a
  · simpa [setNext, e] using hb
  · simpa [setNext, e] using (hc n hn).1

theorem setPrev_within (hc : Closed S L) (ha : a ∈ S) (hb : b ∈ S) : Within S L (setPrev a b L) := by
  refine ⟨fun n hn => ⟨(hc n hn).1, ?_⟩, fun n hn => ⟨rfl, Function.update_of_ne (ne_of_mem_of_not_mem ha hn).symm ..⟩⟩
  by_cases e : n = a
  · simpa [setPrev, e] using hb
  · simpa [setPrev, e] using (hc n hn).2

theorem initHead_within (hc : Closed S L) : Within (insert h S) L (initHead h L) := by
  refine ⟨fun n hn => ?_, fun n hn => ?_⟩
  · by_cases e : n = h
    · simp [initHead, setNext, setPrev, e]
    · have hs := hc n (hn.resolve_left e)
      simp [initHead, setNext, setPrev, e, hs]
  · have e : n ≠ h := fun e => hn (Or.inl e)
    simp [initHead, setNext, setPrev, e]

theorem addToTail_within (hc : Closed S L) (hh : h ∈ S) : Within (insert n S) L (addToTail n h L) := by
  have hp := (hc h hh).2
  refine ⟨fun m hm => ?_, fun m hm => ?_⟩
  · have hnext : m ≠ n → L.next m ∈ S := fun e => (hc m (hm.resolve_left e)).1
    have hprev : m ≠ n → L.prev m ∈ S := fun e => (hc m (hm.resolve_left e)).2
    simp only [addToTail, addToList, setNext, setPrev, Function.update_apply]
    constructor
    · split_ifs with h₁ h₂
      · exact Or.inl rfl
      · exact Or.inr hh
      · exact Or.inr (hnext h₂)
    · split_ifs with h₁ h₂
      · exact Or.inl rfl
      · exact Or.inr hp
      · exact Or.inr (hprev h₂)
  · have e : m ≠ n := fun e => hm (Or.inl e)
    have eh : m ≠ h := fun e => hm (Or.inr (e ▸ hh))
    have ep : m ≠ L.prev h := fun e => hm (Or.inr (e ▸ hp))
    simp [addToTail, addToList, setNext, setPrev, e, eh, ep]

theorem delEntry_within (hc : Closed S L) (hn : n ∈ S) : Within S L (delEntry n L) := by
  have h₁ := setNext_within hc (hc n hn).2 (hc n hn).1
  have h₂ := setPrev_within h₁.closed (h₁.closed n hn).1 (h₁.closed n hn).2
  exact h₁.trans h₂ le_rfl

theorem getFirst_mem (hc : Closed S L) (hh : h ∈ S) (hf : getFirst h L = some n) : n ∈ S := by
  obtain ⟨-, ⟨⟩⟩ := Option.ite_none_left_eq_some.mp hf
  exact (hc h hh).1

theorem getLast_mem (hc : Closed S L) (hh : h ∈ S) (hf : getLast h L = some n) : n ∈ S := by
  obtain ⟨-, ⟨⟩⟩ := Option.ite_none_left_eq_some.mp hf
  exact (hc h hh).2

theorem concatLists_within (hc : Closed S L) (hh₁ : h₁ ∈ S) (hh₂ : h₂ ∈ S) : Within S L (concatLists h₁ h₂ L) := by
  unfold concatLists
  split
  · rename_i headTwo tailTwo _ hf hl
    have hx := getFirst_mem hc hh₂ hf
    have hy := getLast_mem hc hh₂ hl
    have w₁ := setNext_within hc hh₁ hx
    have w₂ := setPrev_within w₁.closed hh₁ hy
    have w₃ := setPrev_within w₂.closed hx hh₁
    have w₄ := setNext_within w₃.closed hy hh₁
    have w₅ := initHead_within w₄.closed (h := h₂)
    rw [Set.insert_eq_of_mem hh₂] at w₅
    exact (((w₁.trans w₂ le_rfl).trans w₃ le_rfl).trans w₄ le_rfl).trans w₅ le_rfl
  · rename_i tailOne headTwo tailTwo _ ht hf hl
    have hz := getLast_mem hc hh₁ ht
    have hx := getFirst_mem hc hh₂ hf
    have hy := getLast_mem hc hh₂ hl
    have w₁ := setNext_within hc hz hx
    have w₂ := setPrev_within w₁.closed hx hz
    have w₃ := setNext_within w₂.closed hy hh₁
    have w₄ := setPrev_within w₃.closed hh₁ hy
    exact ((w₁.trans w₂ le_rfl).trans w₃ le_rfl).trans w₄ le_rfl
  · exact .refl hc

theorem forEach_closed {σ : Type} (links : σ → Links α) {f : α → σ → Option σ} {P : σ → Prop}
    (hP : ∀ s, P s → Closed S (links s)) (hf : ∀ node s s', node ∈ S → P s → f node s = some s' → P s') :
    ∀ m node s s', node ∈ S → P s → forEach links h f m node s = some s' → P s' := by
  intro m
  induction m with
  | zero =>
    intro node s s' _ hs he
    unfold forEach at he
    obtain ⟨-, ⟨⟩⟩ := Option.ite_none_right_eq_some.mp he
    exact hs
  | succ m ih =>
    intro node s s' hn hs he
    unfold forEach at he
    split at he
    · cases he
      exact hs
    · obtain ⟨s₁, h₁, he⟩ := Option.bind_eq_some_iff.mp he
      exact ih _ s₁ s' (hP s hs node hn).1 (hf node s s₁ hn hs h₁) he

end

end Pebbles
