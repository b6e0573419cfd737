import Pebbles.Cow
import Pebbles.Lib.Bytes
import Pebbles.UserAccessSound

/-!
# User memory as a flat memory

The kernel reads and writes user memory through the tables of the current directory. When no
frame is mapped at two places, this is a flat memory of bytes: a store changes what is read
at its own addresses only.
-/

namespace Pebbles

open Words Bytes

namespace Vm

def Unaliased (s : Vm) : Prop :=
  ∀ a b : Word, USER_MEM_START ≤ a.toNat → USER_MEM_START ≤ b.toNat → s.present a = true → s.present b = true →
    getAddrFromEntry (s.pte s.cr3 a) = getAddrFromEntry (s.pte s.cr3 b) → pageRoundDown a = pageRoundDown b

def Present (s : Vm) (va : Word) (n : Nat) : Prop := ∀ x, Inside va n x → s.MayRead x

section
variable {s s' : Vm} {va x : Word} {b : Byte} {bs : List Byte} {n : Nat}

theorem present_of_mapped (h : s.Inv) (hpd : s.cr3 ∈ s.pds) (hu : USER_MEM_START ≤ va.toNat)
    (hne : s.pte s.cr3 va ≠ PAGE_TABLE_ENTRY_DEFAULT) : s.present va = true := by
  have ht := h.kernel.tableAt hpd (user_index hu) (j := getPtIndex va) hne
  unfold present
  rw [Bool.and_eq_true]
  refine ⟨(directory_flags h ht (by decide)).trans (by decide), ?_⟩
  have he := h.entries ht (j := getPtIndex va)
  exact (he hne).1

theorem page_offset_inj (h : pageRoundDown va = pageRoundDown x) (ho : pageOffset va = pageOffset x) : va = x := by
  refine address_ext ?_ ?_ ho
  · rw [← getPdIndex_round va, h, getPdIndex_round]
  · rw [← getPtIndex_round va, h, getPtIndex_round]

theorem readByte_putByte (hs : s.Unaliased) (hv : s.MayRead va) (hx : USER_MEM_START ≤ x.toNat) :
    (s.putByte va b).readByte x = Function.update s.readByte va (some b) x := by
  by_cases e : x = va
  · subst e
    rw [Function.update_self]
    have hp : (s.putByte x b).present x = true := hv.2
    have hpage : (s.putByte x b).readPage x = Function.update (s.readPage x) (pageOffset x) b := if_pos rfl
    rw [readByte, if_pos hp, hpage, Function.update_self]
  · rw [Function.update_of_ne e]
    unfold readByte
    rw [show (s.putByte va b).present x = s.present x from rfl]
    split
    · rename_i hp
      -- another byte of the same page, or another frame
      have hpage : (s.putByte va b).readPage x = if getAddrFromEntry (s.pte s.cr3 x) = getAddrFromEntry (s.pte s.cr3 va)
          then Function.update (s.readPage va) (pageOffset va) b else s.readPage x := rfl
      rw [hpage]
      split
      · rename_i hf
        have hround := hs x va hx hv.1 hp hv.2 hf
        have ho : pageOffset x ≠ pageOffset va := fun ho => e (page_offset_inj hround ho)
        rw [Function.update_of_ne ho]
        unfold readPage
        rw [hf]
      · rfl
    · rfl

theorem writeBytes_present (h : s.Present va bs.length) :
    ∃ umem, s.writeBytes va bs = some { s with umem := umem } := by
  induction bs generalizing va s with
  | nil => exact ⟨s.umem, rfl⟩
  | cons b bs ih =>
    rw [List.length_cons] at h
    have hb : s.writeByte va b = some (s.putByte va b) := if_pos (h va (inside_succ.mpr (.inl rfl))).2
    have hrest : (s.putByte va b).Present (va + 1#32) bs.length := fun x hx => h x (inside_succ.mpr (.inr hx))
    obtain ⟨umem, hw⟩ := ih hrest
    rw [writeBytes, hb]
    exact ⟨umem, hw⟩

theorem readByte_writeBytes (hs : s.Unaliased) (h : s.Present va bs.length) (hw : s.writeBytes va bs = some s')
    (hx : USER_MEM_START ≤ x.toNat) : s'.readByte x = put va (bs.map some) s.readByte x := by
  induction bs generalizing va s with
  | nil =>
    cases hw
    rfl
  | cons b bs ih =>
    rw [List.length_cons] at h
    have hv := h va (inside_succ.mpr (.inl rfl))
    have hb : s.writeByte va b = some (s.putByte va b) := if_pos hv.2
    rw [writeBytes, hb] at hw
    have hrest := ih (s := s.putByte va b) hs (fun x hx => h x (inside_succ.mpr (.inr hx))) hw
    rw [hrest, List.map_cons, put]
    exact put_congr (readByte_putByte hs hv hx)

def writeAll (l : List (Word × List Byte)) (s : Vm) : Option Vm := l.foldlM (fun s p => s.writeBytes p.1 p.2) s

theorem writeAll_present {l : List (Word × List Byte)} (h : ∀ p ∈ l, s.Present p.1 p.2.length) :
    ∃ umem, s.writeAll l = some { s with umem := umem } := by
  induction l generalizing s with
  | nil => exact ⟨s.umem, rfl⟩
  | cons p l ih =>
    obtain ⟨umem, hw⟩ := writeBytes_present (h p List.mem_cons_self)
    obtain ⟨umem', hrest⟩ := ih (s := { s with umem := umem }) fun q hq => h q (List.mem_cons_of_mem _ hq)
    refine ⟨umem', ?_⟩
    rw [writeAll, List.foldlM_cons, hw]
    exact hrest

theorem readByte_writeAll {l : List (Word × List Byte)} (hs : s.Unaliased) (h : ∀ p ∈ l, s.Present p.1 p.2.length)
    (hw : s.writeAll l = some s') (hx : USER_MEM_START ≤ x.toNat) :
    s'.readByte x = Bytes.putAll (l.map fun p => (p.1, p.2.map some)) s.readByte x := by
  induction l generalizing s with
  | nil =>
    cases hw
    rfl
  | cons p l ih =>
    have hp := h p List.mem_cons_self
    obtain ⟨umem, hp'⟩ := writeBytes_present hp
    rw [writeAll, List.foldlM_cons, hp'] at hw
    rw [ih (s := { s with umem := umem }) hs (fun q hq => h q (List.mem_cons_of_mem _ hq)) hw]
    exact putAll_congr (readByte_writeBytes hs hp hp' hx)

theorem Present.mono {m : Nat} (h : s.Present va n) (hmn : m ≤ n) : s.Present va m :=
  fun x hx => h x (Nat.lt_of_lt_of_le hx hmn)

theorem writeBytes_frames {f : Word} (h : s.Present va bs.length) (hw : s.writeBytes va bs = some s')
    (hf : ∀ x, Inside va bs.length x → getAddrFromEntry (s.pte s.cr3 x) ≠ f) : s'.umem f = s.umem f := by
  induction bs generalizing va s with
  | nil =>
    cases hw
    rfl
  | cons b bs ih =>
    rw [List.length_cons] at h hf
    have hin : Inside va (bs.length + 1) va := inside_succ.mpr (.inl rfl)
    have hb : s.writeByte va b = some (s.putByte va b) := if_pos (h va hin).2
    rw [writeBytes, hb] at hw
    rw [ih (s := s.putByte va b) (fun x hx => h x (inside_succ.mpr (.inr hx))) hw
      fun x hx => hf x (inside_succ.mpr (.inr hx))]
    exact if_neg (hf va hin).symm

theorem writeAll_frames {f : Word} {l : List (Word × List Byte)} (h : ∀ p ∈ l, s.Present p.1 p.2.length)
    (hw : s.writeAll l = some s')
    (hf : ∀ p ∈ l, ∀ x, Inside p.1 p.2.length x → getAddrFromEntry (s.pte s.cr3 x) ≠ f) : s'.umem f = s.umem f := by
  induction l generalizing s with
  | nil =>
    cases hw
    rfl
  | cons p l ih =>
    have hp := h p List.mem_cons_self
    obtain ⟨umem, hp'⟩ := writeBytes_present hp
    rw [writeAll, List.foldlM_cons, hp'] at hw
    rw [ih (s := { s with umem := umem }) (fun q hq => h q (List.mem_cons_of_mem _ hq)) hw
      fun q hq => hf q (List.mem_cons_of_mem _ hq)]
    exact writeBytes_frames hp hp' (hf p List.mem_cons_self)

theorem append_wordBytes (v : Word) :
    v.extractLsb' 24 8 ++ v.extractLsb' 16 8 ++ v.extractLsb' 8 8 ++ v.extractLsb' 0 8 = v := by
  rw [BitVec.extractLsb'_append_extractLsb'_eq_extractLsb' (by decide),
    BitVec.extractLsb'_append_extractLsb'_eq_extractLsb' (by decide),
    BitVec.extractLsb'_append_extractLsb'_eq_extractLsb' (by decide)]
  simp

theorem readWord_of_get {v : Word} (h : get s.readByte va 4 = (wordBytes v).map some) : s.readWord va = some v := by
  simp only [get_succ, wordBytes, List.map_cons, List.cons.injEq] at h
  obtain ⟨h₀, h₁, h₂, h₃, -⟩ := h
  rw [add_assoc] at h₂ h₃
  rw [add_assoc] at h₃
  unfold readWord
  rw [h₀, h₁, show va + 2#32 = va + (1#32 + 1#32) from rfl, h₂, show va + 3#32 = va + (1#32 + (1#32 + 1#32)) from rfl,
    h₃]
  simp only [Option.bind_eq_bind, Option.bind_some, Option.pure_def, Option.some.injEq]
  exact append_wordBytes v

end

end Vm

end Pebbles
