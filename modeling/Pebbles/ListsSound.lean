import Pebbles.Lists

/-!
# Lists as sequences

What the functions of `list.c` mean for their callers: a family of heads, each
with a sequence of nodes. The calls on pointers do to the rings what the same
calls do to the sequences, and `concat_lists` does so only up to the head of the
list that it empties.
-/

namespace Pebbles

open Ring

structure Family (α : Type) where
  heads : Set α
  nodes : α → List α

inductive ListCall (α : Type) where
  | initHead (head : α)
  | addToTail (newNode head : α)
  | addToHead (newNode head : α)
  /-- The call `add_to_list(new_node, e->prev, e)`. -/
  | addBefore (newNode e : α)
  | delEntry (node : α)

variable {α : Type}

@[mk_iff] structure Family.Free (F : Family α) (n : α) : Prop where
  head : n ∉ F.heads
  node : ∀ h ∈ F.heads, n ∉ F.nodes h

def Family.Member (F : Family α) (n : α) : Prop := ∃ h ∈ F.heads, n ∈ F.nodes h

/-- The links of a heap lead through the nodes of each list, forwards by `next` and
backwards by `prev`. -/
def Represents (L : Links α) (F : Family α) : Prop := Rings L F.heads F.nodes

def Family.concat [DecidableEq α] (F : Family α) (h₁ h₂ : α) : Family α :=
  { F with nodes := Function.update (Function.update F.nodes h₁ (F.nodes h₁ ++ F.nodes h₂)) h₂ [] }

section
variable [DecidableEq α]

def insertBefore (n e : α) : List α → List α
  | [] => []
  | a :: l => if a = e then n :: a :: l else a :: insertBefore n e l

def ListCall.run : ListCall α → Links α → Links α
  | .initHead head, L => Pebbles.initHead head L
  | .addToTail newNode head, L => Pebbles.addToTail newNode head L
  | .addToHead newNode head, L => Pebbles.addToHead newNode head L
  | .addBefore newNode e, L => addToList newNode (L.prev e) e L
  | .delEntry node, L => Pebbles.delEntry node L

def ListCall.Allowed (F : Family α) : ListCall α → Prop
  | .initHead head => ¬ F.Member head
  | .addToTail newNode head => head ∈ F.heads ∧ F.Free newNode
  | .addToHead newNode head => head ∈ F.heads ∧ F.Free newNode
  | .addBefore newNode e => F.Member e ∧ F.Free newNode
  | .delEntry node => F.Member node

def ListCall.apply (F : Family α) : ListCall α → Family α
  | .initHead head => ⟨insert head F.heads, Function.update F.nodes head []⟩
  | .addToTail newNode head => { F with nodes := Function.update F.nodes head (F.nodes head ++ [newNode]) }
  | .addToHead newNode head => { F with nodes := Function.update F.nodes head (newNode :: F.nodes head) }
  | .addBefore newNode e => { F with nodes := fun h => insertBefore newNode e (F.nodes h) }
  | .delEntry node => { F with nodes := fun h => (F.nodes h).erase node }

def AllowedAll : Family α → List (ListCall α) → Prop
  | _, [] => True
  | F, c :: cs => c.Allowed F ∧ AllowedAll (c.apply F) cs

def runAll (cs : List (ListCall α)) (L : Links α) : Links α := cs.foldl (fun L c => c.run L) L

def applyAll (cs : List (ListCall α)) (F : Family α) : Family α := cs.foldl ListCall.apply F

end

section
variable [DecidableEq α] {L : Links α} {F : Family α} {n e h h₁ h₂ : α} {l l₁ l₂ : List α}

theorem insertBefore_notMem (he : e ∉ l) : insertBefore n e l = l := by
  induction l with
  | nil => rfl
  | cons a l ih =>
    have ha : a ≠ e := Ne.symm (List.ne_of_not_mem_cons he)
    have hl : e ∉ l := List.not_mem_of_not_mem_cons he
    rw [insertBefore, if_neg ha, ih hl]

theorem insertBefore_append (he : e ∉ l₁) : insertBefore n e (l₁ ++ e :: l₂) = l₁ ++ n :: e :: l₂ := by
  induction l₁ with
  | nil => simp [insertBefore]
  | cons a l ih =>
    have ha : a ≠ e := Ne.symm (List.ne_of_not_mem_cons he)
    have hl : e ∉ l := List.not_mem_of_not_mem_cons he
    rw [List.cons_append, insertBefore, if_neg ha, ih hl, List.cons_append]

theorem Represents.addToHead (hr : Represents L F) (hh : h ∈ F.heads) (hn : F.Free n) :
    Represents (addToHead n h L) ((ListCall.addToHead n h).apply F) := by
  have hring := hr.ring h hh
  have hprev : L.prev ((F.nodes h).headD h) = h := by
    have hlast := (show IsRing L h ([] ++ F.nodes h) from hring).prev_mid
    exact (Option.some.inj hlast).symm
  have hnew := addToList_rings hr hh (List.nil_append _).symm hn.head hn.node
  rw [hprev, ← hring.next_head] at hnew
  exact hnew

theorem Represents.addBefore (hr : Represents L F) (he : F.Member e) (hn : F.Free n) :
    Represents (addToList n (L.prev e) e L) ((ListCall.addBefore n e).apply F) := by
  obtain ⟨h, hh, hm⟩ := he
  obtain ⟨l₁, l₂, hl, he₁⟩ := List.eq_append_cons_of_mem hm
  refine (addToList_rings hr hh hl hn.head hn.node).congr fun h' hh' => ?_
  by_cases e' : h' = h
  · rw [e', Function.update_self]
    exact (congrArg (insertBefore n e) hl).trans (insertBefore_append he₁)
  · rw [Function.update_of_ne e']
    exact insertBefore_notMem fun hm' => e' (hr.same hh' hh hm' hm)

theorem Represents.delEntry (hr : Represents L F) (hn : F.Member n) :
    Represents (delEntry n L) ((ListCall.delEntry n).apply F) := by
  obtain ⟨h, hh, hm⟩ := hn
  refine (delEntry_rings hr hh hm).congr fun h' hh' => ?_
  by_cases e' : h' = h
  · rw [e', Function.update_self]
    rfl
  · rw [Function.update_of_ne e']
    exact List.erase_of_not_mem fun hm' => e' (hr.same hh' hh hm' hm)

theorem Represents.run (hr : Represents L F) (c : ListCall α) (hc : c.Allowed F) :
    Represents (c.run L) (c.apply F) := by
  cases c with
  | initHead head => exact initHead_rings hr fun h hh hm => hc ⟨h, hh, hm⟩
  | addToTail n h => exact addToTail_rings hr hc.1 hc.2.head hc.2.node
  | addToHead n h => exact hr.addToHead hc.1 hc.2
  | addBefore n e => exact hr.addBefore hc.1 hc.2
  | delEntry n => exact hr.delEntry hc

theorem Represents.runAll (hr : Represents L F) (cs : List (ListCall α)) (hc : AllowedAll F cs) :
    Represents (runAll cs L) (applyAll cs F) := by
  induction cs generalizing L F with
  | nil => exact hr
  | cons c cs ih => exact ih (hr.run c hc.1) hc.2

/-- The pointers of every heap follow the sequences through every run of calls, and
the two ends are found as in the sequence. -/
theorem lists_implement_sequences (hr : Represents L F) (cs : List (ListCall α)) (hc : AllowedAll F cs) :
    Represents (runAll cs L) (applyAll cs F) ∧
      ∀ h ∈ (applyAll cs F).heads,
        getFirst h (runAll cs L) = ((applyAll cs F).nodes h).head? ∧
        getLast h (runAll cs L) = ((applyAll cs F).nodes h).getLast? ∧
        (getFirst h (runAll cs L) = none ↔ (applyAll cs F).nodes h = []) ∧
        (getLast h (runAll cs L) = none ↔ (applyAll cs F).nodes h = []) := by
  have hnew := hr.runAll cs hc
  refine ⟨hnew, fun h hh => ?_⟩
  rw [getFirst_eq (hnew.ring h hh), getLast_eq (hnew.ring h hh)]
  exact ⟨rfl, rfl, List.head?_eq_none_iff, List.getLast?_eq_none_iff⟩

/-- A list of three nodes, made by all the ways to put one in. -/
theorem lists_implement_sequences_three :
    let F : Family (Fin 4) := ⟨{0}, fun _ => []⟩
    let L : Links (Fin 4) := ⟨id, id⟩
    let cs := [.addToTail 1 0, .addToHead 2 0, .addBefore 3 1]
    AllowedAll F cs ∧ (applyAll cs F).nodes 0 = [2, 3, 1] ∧ Represents (runAll cs L) (applyAll cs F) := by
  intro F L cs
  have hr : Represents L F := ⟨by simp [F, L, isRing_nil], by simp [F]⟩
  have hc : AllowedAll F cs := by
    simp [F, cs, AllowedAll, ListCall.Allowed, ListCall.apply, Family.Member, Family.free_iff]
  exact ⟨hc, rfl, (lists_implement_sequences hr cs hc).1⟩

/-! ## Concatenation -/

theorem Represents.concat_others (hr : Represents L F) (hh₁ : h₁ ∈ F.heads) (hh₂ : h₂ ∈ F.heads) (hne : h₁ ≠ h₂) :
    Rings (concatLists h₁ h₂ L) (F.heads \ {h₂}) (F.concat h₁ h₂).nodes :=
  (concatLists_rings hr hh₁ hh₂ hne).congr fun _ hh => Function.update_of_ne hh.2 ..

theorem concatLists_second (hr₁ : IsRing L h₁ l₁) (hr₂ : IsRing L h₂ l₂) (hne : h₁ ≠ h₂) (hm₁ : h₁ ∉ l₂)
    (hm₂ : h₂ ∉ l₁) :
    IsRing (concatLists h₁ h₂ L) h₂ [] ↔ l₁ = [] ∨ l₂ = [] := by
  cases l₂ with
  | nil => simpa [concatLists_nil hr₂] using hr₂
  | cons x q =>
    obtain ⟨d, hd⟩ : ∃ d, (x :: q).getLast? = some d := ⟨_, List.getLast?_eq_some_getLast (by simp)⟩
    cases l₁ with
    | nil =>
      have hx : x ≠ h₁ := fun e => hm₁ (e ▸ List.mem_cons_self)
      simpa [concatLists_to_nil hr₁ hr₂ hd hx] using initHead_ring h₂ _
    | cons a l₁ =>
      have hd₂ : h₂ ≠ d := fun e => hr₂.head_notMem (e ▸ List.mem_of_getLast? hd)
      have hp₂ : h₂ ≠ L.prev h₁ := fun e => List.not_mem_cons_of_ne_of_not_mem hne.symm hm₂ (e ▸ hr₁.prev_mem)
      have hx₂ : x ≠ h₂ := fun e => hr₂.head_notMem (e ▸ List.mem_cons_self)
      have hnext : ((L.join (L.prev h₁) x).join d h₁).next h₂ = x := by
        rw [join_next_of_ne hd₂, join_next_of_ne hp₂]
        exact hr₂.next_head
      simp [concatLists_to_cons hr₁ hr₂ hd, isRing_nil, hnext, hx₂]

theorem concat_lists_splices_iff (hr : Represents L F) (hh₁ : h₁ ∈ F.heads) (hh₂ : h₂ ∈ F.heads) (hne : h₁ ≠ h₂) :
    Represents (concatLists h₁ h₂ L) (F.concat h₁ h₂) ↔ F.nodes h₁ = [] ∨ F.nodes h₂ = [] := by
  have hsecond := concatLists_second (hr.ring h₁ hh₁) (hr.ring h₂ hh₂) hne (hr.apart h₂ hh₂ h₁ hh₁)
    (hr.apart h₁ hh₁ h₂ hh₂)
  have hnodes : (F.concat h₁ h₂).nodes h₂ = [] := Function.update_self ..
  have hothers := hr.concat_others hh₁ hh₂ hne
  rw [← hsecond]
  constructor
  · intro hnew
    exact hnodes ▸ hnew.ring h₂ hh₂
  · intro hring
    have hkeep : SameOff [] (concatLists h₁ h₂ L) (concatLists h₁ h₂ L) := fun _ _ => ⟨rfl, rfl⟩
    have hnew := hothers.update hring hkeep (by simp) (by simp) ?_
    · rw [Set.insert_sdiff_singleton, Set.insert_eq_of_mem hh₂, ← hnodes, Function.update_eq_self] at hnew
      exact hnew
    · intro h hh _
      by_cases e : h = h₁
      · subst e
        simp [Family.concat, hne, hr.apart h hh₁ h₂ hh₂, hr.apart h₂ hh₂ h₂ hh₂]
      · have hn : h ≠ h₂ := hh.2
        simp [Family.concat, e, hn, hr.apart h hh.1 h₂ hh₂]

end

def twoHeads (l : List (Fin 4)) : Family (Fin 4) := ⟨{h | h = 0 ∨ h = 2}, ![l, [], [3], []]⟩

theorem concat_lists_splices_empty :
    let L : Links (Fin 4) := ⟨![0, 1, 3, 2], ![0, 1, 3, 2]⟩
    Represents L (twoHeads []) ∧ Represents (concatLists 0 2 L) ((twoHeads []).concat 0 2) := by
  intro L
  have hr : Represents L (twoHeads []) := by
    constructor
    · rintro h (rfl | rfl) <;> decide
    · rintro h (rfl | rfl) h' (rfl | rfl) <;> decide
  exact ⟨hr, (concat_lists_splices_iff hr (.inl rfl) (.inr rfl) (by decide)).mpr (.inl rfl)⟩

theorem concat_lists_keeps_second :
    let L : Links (Fin 4) := ⟨![1, 0, 3, 2], ![1, 0, 3, 2]⟩
    Represents L (twoHeads [1]) ∧ ¬ Represents (concatLists 0 2 L) ((twoHeads [1]).concat 0 2) := by
  intro L
  have hr : Represents L (twoHeads [1]) := by
    constructor
    · rintro h (rfl | rfl) <;> decide
    · rintro h (rfl | rfl) h' (rfl | rfl) <;> decide
  have hs : ¬ IsRing (concatLists 0 2 L) 2 [] := by decide
  exact ⟨hr, fun hnew => hs (hnew.ring 2 (.inr rfl))⟩

end Pebbles
