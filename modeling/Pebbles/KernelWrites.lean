import Pebbles.Cow
import Pebbles.UserAccessSound

/-!
# Kernel stores and shared frames

The kernel stores through a page whatever its write flag is. Where every page
that a call stores to is writable for the task, the frames have one reference
and no other task sees a change; nothing but the first page of some calls is
tested for this.
-/

namespace Pebbles

open Words Traced Runs

namespace Vm

def putAll (l : List (Word × Byte)) (s : Vm) : Vm := l.foldl (fun s p => s.putByte p.1 p.2) s

theorem putAll_append (l m : List (Word × Byte)) (s : Vm) : s.putAll (l ++ m) = (s.putAll l).putAll m :=
  List.foldl_append ..

def Stored {β : Type} (s : Vm) (state : β → Vm) (x : Run Word β) : Prop :=
  ∀ b, x.value = some b → ∃ l, state b = s.putAll l ∧ l.map Prod.fst = x.writes

section
variable {β γ : Type} {s : Vm} {g : β → Vm} {h : γ → Vm} {x : Run Word β} {f : β → Run Word γ}

theorem Stored.bind (hx : Stored s g x) (hf : ∀ b, x.value = some b → Stored (g b) h (f b)) :
    Stored s h (x >>= f) := by
  intro c hc
  rw [Run.value_bind, Option.bind_eq_some_iff] at hc
  obtain ⟨b, hb, hc⟩ := hc
  obtain ⟨l, hl, hw⟩ := hx b hb
  obtain ⟨m, hm, hw'⟩ := hf b hb c hc
  refine ⟨l ++ m, by rw [hm, hl, putAll_append], ?_⟩
  rw [Run.bind_some hb, List.map_append, hw, hw']

theorem stored_quiet (hx : x.Quiet) (hg : ∀ b, x.value = some b → g b = s) : Stored s g x :=
  fun b hb => ⟨[], hg b hb, hx.symm⟩

theorem stored_pure (b : β) (hb : g b = s) : Stored s g (pure b) := stored_quiet rfl fun _ h => by cases h; exact hb

theorem Stored.after (hx : x.Quiet) (hf : ∀ b, Stored s h (f b)) : Stored s h (x >>= f) :=
  Stored.bind (g := fun _ => s) (stored_quiet hx fun _ _ => rfl) fun b _ => hf b

theorem stored_storeBytes {va : Word} {bs : List Byte} {s : Vm} : Stored s id (s.storeBytes va bs) := by
  induction bs generalizing va s with
  | nil => exact stored_pure s rfl
  | cons b bs ih =>
    refine Stored.bind (g := id) (fun s' hs => ?_) fun s' _ => ih
    obtain ⟨-, rfl⟩ := writeByte_present hs
    exact ⟨[(va, b)], rfl, rfl⟩

theorem stored_storeWord {va w : Word} {s : Vm} : Stored s id (s.storeWord va w) := stored_storeBytes

end

/-! ## The stores of the kernel -/

inductive Writer where
  | status (statusPtr exitStatus : Word)
  | readline (buf len : Word) (kb : KeyBuf)
  | readfile (toc : Toc) (argPacket : Word)
  | cursorPos (argPacket cursorRow cursorCol : Word)
  | swexnStack (esp3 : Word) (ureg : Ureg) (arg : Word)

namespace Writer

def run (s : Vm) : Writer → Run Word Vm
  | .status statusPtr exitStatus => s.storeExitStatus statusPtr exitStatus
  | .readline buf len kb => s.readlineRound buf len kb >>= fun v => return v.2.2
  | .readfile toc argPacket => s.readfileHandlerC toc argPacket >>= fun v => return v.2
  | .cursorPos argPacket row col => s.getCursorPosHandlerC argPacket row col >>= fun v => return v.2
  | .swexnStack esp3 ureg arg => s.storeSwexnFrame esp3 ureg arg >>= fun v => return v.2

variable {s : Vm}

theorem stored_status (p w : Word) : Stored s id (s.storeExitStatus p w) := by
  unfold storeExitStatus
  split
  · exact stored_pure s rfl
  · exact stored_storeWord

theorem stored_readline (buf len : Word) (kb : KeyBuf) : Stored s (·.2.2) (s.readlineRound buf len kb) := by
  refine Stored.after rfl fun line => ?_
  split
  · exact stored_pure _ rfl
  · exact stored_storeBytes.bind fun s' _ => stored_pure _ rfl

theorem stored_readfile (toc : Toc) (p : Word) : Stored s Prod.snd (s.readfileHandlerC toc p) := by
  refine Stored.after quiet_loadWord fun filename => Stored.after quiet_scanName fun name => ?_
  cases name with
  | none => exact stored_pure _ rfl
  | some name =>
    dsimp only
    split
    · exact stored_pure _ rfl
    · refine Stored.after quiet_loadWord fun buf => Stored.after quiet_loadWord fun size =>
        Stored.after quiet_loadWord fun offset => ?_
      split
      · exact stored_pure _ rfl
      · exact stored_storeBytes.bind fun s' _ => stored_pure _ rfl

theorem stored_cursorPos (p r c : Word) : Stored s Prod.snd (s.getCursorPosHandlerC p r c) := by
  refine Stored.after quiet_loadWord fun row => Stored.after rfl fun ok => ?_
  split
  · exact stored_pure _ rfl
  · refine Stored.after quiet_loadWord fun col => Stored.after rfl fun ok => ?_
    split
    · exact stored_pure _ rfl
    · exact stored_storeWord.bind fun s₁ _ => stored_storeWord.bind fun s₂ _ => stored_pure _ rfl

theorem stored_swexnStack (esp3 : Word) (u : Ureg) (arg : Word) : Stored s Prod.snd (s.storeSwexnFrame esp3 u arg) :=
  stored_storeBytes.bind fun _ _ => stored_storeWord.bind fun _ _ => stored_storeWord.bind fun _ _ =>
    stored_storeWord.bind fun _ _ => stored_pure _ rfl

theorem stored_run (w : Writer) : Stored s id (w.run s) := by
  cases w with
  | status p w => exact stored_status p w
  | readline buf len kb => exact (stored_readline buf len kb).bind fun _ _ => stored_pure _ rfl
  | readfile toc p => exact (stored_readfile toc p).bind fun _ _ => stored_pure _ rfl
  | cursorPos p r c => exact (stored_cursorPos p r c).bind fun _ _ => stored_pure _ rfl
  | swexnStack esp3 u arg => exact (stored_swexnStack esp3 u arg).bind fun _ _ => stored_pure _ rfl

def range (s : Vm) : Writer → List Word
  | .status statusPtr _ => if statusPtr = 0#32 then [] else span statusPtr 4
  | .readline buf len _ => span buf len.toInt.toNat
  | .readfile _ argPacket =>
    match s.readWord (argPacket + 4#32), s.readWord (argPacket + 8#32) with
    | some buf, some size => span buf size.toInt.toNat
    | _, _ => []
  | .cursorPos argPacket _ _ =>
    match s.readWord argPacket, s.readWord (argPacket + 4#32) with
    | some row, some col => span row 4 ++ span col 4
    | _, _ => []
  | .swexnStack esp3 _ _ => span (esp3 - 92#32) 92

section
variable {W : Word → Prop} {β : Type}

theorem within_storeBytes_of {va : Word} {bs : List Byte} (h : ∀ a ∈ span va bs.length, W a) :
    (s.storeBytes va bs).Within (fun _ => True) W := by
  induction bs generalizing va s with
  | nil => simp [storeBytes]
  | cons b bs ih =>
    refine (Run.within_bind _ _).mpr ⟨(Run.within_write _ _).mpr (h va (by simp [span])), fun s' _ => ?_⟩
    exact ih fun a ha => h a (by simp [span, ha])

theorem within_storeWord_of {va w : Word} (h : ∀ a ∈ span va 4, W a) :
    (s.storeWord va w).Within (fun _ => True) W := within_storeBytes_of h

theorem within_after {γ : Type} {x : Run Word β} {f : β → Run Word γ} (hx : x.Quiet)
    (hf : ∀ b, x.value = some b → (f b).Within (fun _ => True) W) : (x >>= f).Within (fun _ => True) W :=
  (Run.within_bind _ _).mpr ⟨within_true hx, hf⟩

theorem within_then {γ : Type} {x : Run Word β} {f : β → Run Word γ} (hx : x.Within (fun _ => True) W)
    (hf : ∀ b, (f b).Within (fun _ => True) W) : (x >>= f).Within (fun _ => True) W :=
  (Run.within_bind _ _).mpr ⟨hx, fun b _ => hf b⟩

theorem within_readline {buf len : Word} {kb : KeyBuf} (h : ∀ a ∈ span buf len.toInt.toNat, W a) :
    (s.readlineRound buf len kb).Within (fun _ => True) W := by
  refine within_after rfl fun line hl => ?_
  split
  · simp
  · refine within_then (within_storeBytes_of fun a ha => h a (mem_span_of_le ?_ ha)) fun _ => Run.within_pure _
    rcases getNextline_cases hl with ⟨-, hc, -⟩ | ⟨⟨-, hc⟩ | ⟨-, hc⟩, -⟩
    · simp [hc]
    · simp [hc]
    · exact hc

theorem within_readfile {toc : Toc} {p : Word}
    (h : ∀ buf size, s.readWord (p + 4#32) = some buf → s.readWord (p + 8#32) = some size →
      ∀ a ∈ span buf size.toInt.toNat, W a) : (s.readfileHandlerC toc p).Within (fun _ => True) W := by
  refine within_after quiet_loadWord fun filename _ => within_after quiet_scanName fun name _ => ?_
  cases name with
  | none => simp
  | some name =>
    dsimp only
    split
    · simp
    · refine within_after quiet_loadWord fun buf hbuf => within_after quiet_loadWord fun size hsize =>
        within_after quiet_loadWord fun offset _ => ?_
      split
      · simp
      · refine within_then (within_storeBytes_of fun a ha => ?_) fun _ => Run.within_pure _
        rw [value_loadWord] at hbuf hsize
        refine h buf size hbuf hsize a (mem_span_of_le ?_ ha)
        rcases getbytes_cases toc name offset size with ⟨-, he⟩ | ⟨-, hle⟩
        · simp [he]
        · exact hle

theorem within_cursorPos {p r c : Word} (h : ∀ row col, s.readWord p = some row → s.readWord (p + 4#32) = some col →
      (∀ a ∈ span row 4, W a) ∧ ∀ a ∈ span col 4, W a) :
    (s.getCursorPosHandlerC p r c).Within (fun _ => True) W := by
  refine within_after quiet_loadWord fun row hrow => within_after rfl fun ok _ => ?_
  split
  · simp
  · refine within_after quiet_loadWord fun col hcol => within_after rfl fun ok _ => ?_
    split
    · simp
    · rw [value_loadWord] at hrow hcol
      have hb := h row col hrow hcol
      exact within_then (within_storeWord_of hb.1) fun _ => within_then (within_storeWord_of hb.2) fun _ =>
        Run.within_pure _

theorem within_swexnStack {esp3 : Word} {u : Ureg} {arg : Word} (h : ∀ a ∈ span (esp3 - 92#32) 92, W a) :
    (s.storeSwexnFrame esp3 u arg).Within (fun _ => True) W := by
  rw [span_swexn] at h
  simp only [List.forall_mem_append] at h
  obtain ⟨h₃, h₂, h₁, h₀⟩ := h
  exact within_then (within_storeBytes_of h₀) fun _ => within_then (within_storeWord_of h₁) fun _ =>
    within_then (within_storeWord_of h₂) fun _ => within_then (within_storeWord_of h₃) fun _ => Run.within_pure _

end

theorem writes_in_range (w : Writer) (s : Vm) : ∀ a ∈ (w.run s).writes, a ∈ w.range s := by
  suffices h : (w.run s).Within (fun _ => True) (· ∈ w.range s) from h.2
  cases w with
  | status p w =>
    rw [run, storeExitStatus]
    split
    · simp
    · rename_i hp
      exact within_storeWord_of fun a ha => by simpa [range, hp] using ha
  | readline buf len kb => exact within_then (within_readline fun a ha => ha) fun _ => Run.within_pure _
  | readfile toc p =>
    exact within_then (within_readfile fun buf size hb hs a ha => by simpa [range, hb, hs] using ha) fun _ =>
      Run.within_pure _
  | cursorPos p r c =>
    refine within_then (within_cursorPos fun row col hr hc => ?_) fun _ => Run.within_pure _
    simp only [range, hr, hc, List.mem_append]
    exact ⟨fun a ha => .inl ha, fun a ha => .inr ha⟩
  | swexnStack esp3 u arg => exact within_then (within_swexnStack fun a ha => ha) fun _ => Run.within_pure _

end Writer

/-! ## Shared frames -/

section
variable {s : Vm} {l : List (Word × Byte)}

theorem putAll_inv (h : s.Inv) (l : List (Word × Byte)) : (s.putAll l).Inv := by
  induction l generalizing s with
  | nil => exact h
  | cons p l ih => exact ih (putByte_inv h p.1 p.2)

theorem putAll_page (h : s.Inv) (hpd : s.cr3 ∈ s.pds) (hw : ∀ p ∈ l, s.userWritable s.cr3 p.1 = true) {pd : Word}
    (hpd' : pd ∈ s.pds) (hne : pd ≠ s.cr3) (i j : Index) : (s.putAll l).page pd i j = s.page pd i j := by
  induction l generalizing s with
  | nil => rfl
  | cons p l ih =>
    have hp := putByte_page (b := p.2) h hpd (hw p (by simp)) hpd' i j
    rw [if_neg fun e => hne e.1] at hp
    rw [← hp]
    exact ih (s := s.putByte p.1 p.2) (putByte_inv h p.1 p.2) hpd (fun q hq => hw q (by simp [hq])) hpd' hne

theorem putAll_pds (l : List (Word × Byte)) : (s.putAll l).pds = s.pds := by
  induction l generalizing s with
  | nil => rfl
  | cons p l ih => exact ih

theorem refCount_of_writable {a : Word} (h : s.Inv) (hpd : s.cr3 ∈ s.pds) (hw : s.userWritable s.cr3 a = true) :
    s.fr.frameRefCount (frameIndex (getAddrFromEntry (s.pte s.cr3 a))) = 1 := by
  obtain ⟨hu, hp, hrw⟩ := (userWritable_iff h hpd).mp hw
  have hne := ne_default_of_present hp
  have ht := h.kernel.tableAt hpd (user_index hu) (j := getPtIndex a) hne
  have hone : refs s.toTables (getAddrFromEntry (s.pte s.cr3 a)) = 1 := h.sole ht (by simp) hne hrw
  have hfr : IsFrame s.fr (getAddrFromEntry (s.pte s.cr3 a)) := h.isFrame ht hne
  rw [h.agree.counts _ hfr, hone]
  rfl

end

/-- The steps of memory, and stores of the kernel to pages that are there. -/
inductive KernelStep : Vm → Vm → Prop
  | mem {s s'} : MemStep s s' → KernelStep s s'
  | store {s va b s'} : s.cr3 ∈ s.pds → s.writeByte va b = some s' → KernelStep s s'

theorem kernelStep_inv {s : Vm} (h : Reach Booted KernelStep s) : s.Inv := by
  refine h.invariant (fun _ hb => hb.inv) fun s s' hi hs => ?_
  cases hs with
  | mem hm => exact hm.inv hi
  | store _ hw =>
    obtain ⟨-, rfl⟩ := writeByte_present hw
    exact putByte_inv hi _ _

namespace Writer

/-- What the arguments name is in pages that the task itself can write. -/
def Unshared (w : Writer) (s : Vm) : Prop := ∀ a ∈ w.range s, s.userWritable s.cr3 a = true

/-- In every reachable state, a call whose arguments name writable pages stores
only to frames with one reference, and every other task reads what it has read
before. -/
theorem stores_unshared {s : Vm} (h : Reach Booted KernelStep s) (hpd : s.cr3 ∈ s.pds) (w : Writer)
    (hw : w.Unshared s) :
    (∀ a ∈ (w.run s).writes, s.fr.frameRefCount (frameIndex (getAddrFromEntry (s.pte s.cr3 a))) = 1) ∧
      ∀ s', (w.run s).value = some s' → ∀ pd ∈ s.pds, pd ≠ s.cr3 → ∀ va, s'.userLoad pd va = s.userLoad pd va := by
  have hi := kernelStep_inv h
  have hw : ∀ a ∈ (w.run s).writes, s.userWritable s.cr3 a = true := fun a ha => hw a (w.writes_in_range s a ha)
  refine ⟨fun a ha => refCount_of_writable hi hpd (hw a ha), fun s' hs pd hpd' hne va => ?_⟩
  obtain ⟨l, rfl, hl⟩ := stored_run w s' hs
  have hall : ∀ p ∈ l, s.userWritable s.cr3 p.1 = true := fun p hp =>
    hw p.1 (hl ▸ List.mem_map_of_mem hp)
  exact userLoad_congr hi (putAll_inv hi l) hpd' ((putAll_pds l).symm ▸ hpd')
    (putAll_page hi hpd hall hpd' hne _ _)

theorem mappedVm_kernelReach : Reach Booted KernelStep mappedVm :=
  Reach.refines (f := id) (fun _ hb => hb) (fun _ _ _ hs => .single (.mem hs)) mappedVm_reach

/-- `mappedVm` puts the status of a child into its own page. -/
theorem stores_unshared_mapped : (span 0x01000010#32 4).all (fun a =>
    mappedVm.fr.frameRefCount (frameIndex (getAddrFromEntry (mappedVm.pte mappedVm.cr3 a))) = 1) = true := by
  have hw : ((status 0x01000010#32 7#32).run mappedVm).writes = span 0x01000010#32 4 := by decide +kernel
  have hall : (span 0x01000010#32 4).all (fun a => mappedVm.userWritable mappedVm.cr3 a) = true := by decide +kernel
  have hu : ∀ a ∈ span 0x01000010#32 4, mappedVm.userWritable mappedVm.cr3 a = true := List.all_eq_true.mp hall
  rw [← hw, List.all_eq_true]
  intro a ha
  exact decide_eq_true ((stores_unshared mappedVm_kernelReach (by decide +kernel)
    (.status 0x01000010#32 7#32) hu).1 a ha)

end Writer

/-! ## After a fork -/

section
variable {s s' : Vm} {newPd va : Word}

theorem putAll_toTables (l : List (Word × Byte)) : (s.putAll l).toTables = s.toTables ∧ (s.putAll l).cr3 = s.cr3 := by
  induction l generalizing s with
  | nil => exact ⟨rfl, rfl⟩
  | cons p l ih => exact ih (s := s.putByte p.1 p.2)

theorem fork_pte (h : s.Inv) (hpd : s.cr3 ∈ s.pds) (hc : clonePagingInfo s.cr3 s = (some newPd, s'))
    (hu : USER_MEM_START ≤ va.toNat) (hp : bit (s.pte s.cr3 va) 0 = true) :
    s'.pte s.cr3 va = cowEntry (s.pte s.cr3 va) ∧ s'.pte newPd va = cowEntry (s.pte s.cr3 va) := by
  obtain ⟨use, ho⟩ := h.owned
  obtain ⟨-, hf, -, -⟩ := clonePagingInfo_some ho hpd hc
  have ht := h.kernel.tableAt hpd (user_index hu) (j := getPtIndex va) (ne_default_of_present hp)
  obtain ⟨ht₁, he₁⟩ := hf.own ht
  obtain ⟨t, ht₂, he₂⟩ := hf.child ht
  simp only [pte_eq_entry, ht.entry, ht₁.entry, ht₂.entry, he₁, he₂, and_self]

theorem fork_mayWrite (h : s.Inv) (hpd : s.cr3 ∈ s.pds) (hc : clonePagingInfo s.cr3 s = (some newPd, s'))
    (hw : s.userWritable s.cr3 va = true) : s'.MayWrite va := by
  obtain ⟨hu, hp, hrw⟩ := (userWritable_iff h hpd).mp hw
  obtain ⟨use, ho⟩ := h.owned
  obtain ⟨-, -, hcr, -⟩ := clonePagingInfo_some ho hpd hc
  obtain ⟨he, -⟩ := fork_pte h hpd hc hu hp
  obtain ⟨-, hpds, -⟩ := clonePagingInfo_page h hpd hc
  have hp' : bit (s'.pte s.cr3 va) 0 = true := by rw [he, bit_cowEntry_zero, hp]
  have hr := (userReadable_iff (clonePagingInfo_inv h hpd hc) (hpds ▸ Finset.mem_insert_of_mem hpd)).mpr ⟨hu, hp'⟩
  simp only [userReadable, Bool.and_eq_true] at hr
  rw [MayWrite, MayRead, present, hcr, Bool.and_eq_true, he, bit_cowEntry (ne_default_of_present hp) (by decide),
    bit_cowEntry (ne_default_of_present hp) (k := 9) (by decide), hrw]
  exact ⟨⟨hu, hr.1.1.1, by simpa using hp⟩, .inr (by simp)⟩

theorem fork_refCount (h : s.Inv) (hpd : s.cr3 ∈ s.pds) (hc : clonePagingInfo s.cr3 s = (some newPd, s'))
    (hu : USER_MEM_START ≤ va.toNat) (hp : bit (s.pte s.cr3 va) 0 = true) :
    s'.fr.frameRefCount (frameIndex (getAddrFromEntry (s'.pte s.cr3 va))) ≠ 1 := by
  have h' := clonePagingInfo_inv h hpd hc
  obtain ⟨hfresh, hpds, -⟩ := clonePagingInfo_page h hpd hc
  obtain ⟨he, he'⟩ := fork_pte h hpd hc hu hp
  have hpd₁ : s.cr3 ∈ s'.pds := hpds ▸ Finset.mem_insert_of_mem hpd
  have hpd₂ : newPd ∈ s'.pds := hpds ▸ Finset.mem_insert_self newPd s.pds
  have hp₁ : bit (s'.pte s.cr3 va) 0 = true := by rw [he, bit_cowEntry_zero, hp]
  have hp₂ : bit (s'.pte newPd va) 0 = true := by rw [he', bit_cowEntry_zero, hp]
  have ht := h'.kernel.tableAt hpd₁ (user_index hu) (j := getPtIndex va) (ne_default_of_present hp₁)
  have hfr : IsFrame s'.fr (getAddrFromEntry (s'.pte s.cr3 va)) := h'.isFrame ht (ne_default_of_present hp₁)
  rw [h'.agree.counts _ hfr]
  intro hone
  refine page_frame_ne h' hpd₁ hpd₂ (user_index hu) (user_index hu) hp₁ hp₂ (by exact_mod_cast hone) ?_ ?_
  · rintro ⟨rfl, -⟩
    exact hfresh hpd
  · exact congrArg base (he'.trans he.symm)

theorem fork_store_seen {b : Byte} (h : s.Inv) (hpd : s.cr3 ∈ s.pds)
    (hc : clonePagingInfo s.cr3 s = (some newPd, s')) (hu : USER_MEM_START ≤ va.toNat)
    (hp : bit (s.pte s.cr3 va) 0 = true) (l : List (Word × Byte)) :
    ((s'.putAll l).putByte va b).userLoad newPd va = some b := by
  have h' := putByte_inv (putAll_inv (clonePagingInfo_inv h hpd hc) l) va b
  obtain ⟨-, hpds, -⟩ := clonePagingInfo_page h hpd hc
  obtain ⟨use, ho⟩ := h.owned
  obtain ⟨-, -, hcr, -⟩ := clonePagingInfo_some ho hpd hc
  obtain ⟨he, he'⟩ := fork_pte h hpd hc hu hp
  obtain ⟨htab, hcr'⟩ := putAll_toTables (s := s') l
  have hpte : ∀ pd, ((s'.putAll l).putByte va b).pte pd va = s'.pte pd va := fun pd =>
    congrArg (fun tb : Tables => tb.pte pd va) htab
  have hnew : newPd ∈ ((s'.putAll l).putByte va b).pds := by
    rw [show ((s'.putAll l).putByte va b).pds = s'.pds from putAll_pds l, hpds]
    exact Finset.mem_insert_self newPd s.pds
  have hr : ((s'.putAll l).putByte va b).userReadable newPd va = true := by
    rw [userReadable_iff h' hnew, hpte, he', bit_cowEntry_zero]
    exact ⟨hu, hp⟩
  have hframe : (s'.putAll l).pte (s'.putAll l).cr3 va = s'.pte newPd va := by
    rw [hcr', hcr, he', ← he]
    exact hpte _
  rw [userLoad, if_pos hr, hpte, ← hframe]
  simp [putByte, writePage, setFrame]

end

namespace Writer

def forkedVm : Vm := (clonePagingInfo 0x5000#32 mappedVm).2

theorem mappedVm_cr3 : mappedVm.cr3 = 0x5000#32 := by decide +kernel

theorem mappedVm_clone : clonePagingInfo mappedVm.cr3 mappedVm = (some 0x7000#32, forkedVm) := by
  rw [mappedVm_cr3]
  exact Prod.ext (by decide +kernel) rfl

theorem forkedVm_reach : Reach Booted KernelStep forkedVm :=
  mappedVm_kernelReach.tail (.mem (.clonePagingInfo (by decide +kernel) mappedVm_clone))

theorem writeBytes_cons {s s' : Vm} {va : Word} {b : Byte} {bs : List Byte} (h : s.writeBytes va (b :: bs) = some s') :
    (s.putByte va b).writeBytes (va + 1#32) bs = some s' := by
  unfold writeBytes at h
  cases hw : s.writeByte va b with
  | none =>
    rw [hw] at h
    cases h
  | some s₁ =>
    rw [hw] at h
    obtain ⟨-, rfl⟩ := writeByte_present hw
    exact h

theorem writeWord_last {s s' : Vm} {va w : Word} (h : s.writeWord va w = some s') :
    ∃ l, s' = (s.putAll l).putByte (va + 1#32 + 1#32 + 1#32) (w.extractLsb' 24 8) := by
  have h := writeBytes_cons (writeBytes_cons (writeBytes_cons (writeBytes_cons h)))
  exact ⟨[(va, _), (va + 1#32, _), (va + 1#32 + 1#32, _)], (Option.some.inj h).symm⟩

theorem writeBytes_putAll {s s' : Vm} {va : Word} {bs : List Byte} (h : s.writeBytes va bs = some s') :
    ∃ l, s' = s.putAll l := by
  obtain ⟨l, hl, -⟩ := stored_storeBytes s' ((value_storeBytes va bs s).trans h)
  exact ⟨l, hl⟩

theorem storeSwexnFrame_last {s : Vm} {esp3 : Word} (u : Ureg) (arg : Word) (hw : s.Writable (esp3 - 92#32) 92) :
    ∃ l, ((swexnStack esp3 u arg).run s).value = some
      ((s.putAll l).putByte (esp3 - UREG_SIZE - 12#32 + 1#32 + 1#32 + 1#32) (u.eip.extractLsb' 24 8)) := by
  unfold Writable at hw
  rw [span_swexn] at hw
  simp only [List.forall_mem_append] at hw
  obtain ⟨hw₃, hw₂, hw₁, hw₀⟩ := hw
  obtain ⟨s₀, h₀⟩ := writeBytes_of_writable (u.words.flatMap wordBytes) (s := s) hw₀
  have e₀ := writeBytes_mayWrite h₀
  obtain ⟨s₁, h₁⟩ := writeBytes_of_writable (wordBytes (esp3 - UREG_SIZE)) (s := s₀)
    (show s₀.Writable (esp3 - UREG_SIZE - 4#32) 4 by unfold Writable; rw [e₀]; exact hw₁)
  have e₁ := (writeBytes_mayWrite h₁).trans e₀
  obtain ⟨s₂, h₂⟩ := writeBytes_of_writable (wordBytes arg) (s := s₁)
    (show s₁.Writable (esp3 - UREG_SIZE - 8#32) 4 by unfold Writable; rw [e₁]; exact hw₂)
  have e₂ := (writeBytes_mayWrite h₂).trans e₁
  obtain ⟨s₃, h₃⟩ := writeBytes_of_writable (wordBytes u.eip) (s := s₂)
    (show s₂.Writable (esp3 - UREG_SIZE - 12#32) 4 by unfold Writable; rw [e₂]; exact hw₃)
  obtain ⟨l₀, rfl⟩ := writeBytes_putAll h₀
  obtain ⟨l₁, rfl⟩ := writeBytes_putAll h₁
  obtain ⟨l₂, rfl⟩ := writeBytes_putAll h₂
  obtain ⟨l₃, rfl⟩ := writeWord_last h₃
  refine ⟨l₀ ++ (l₁ ++ (l₂ ++ l₃)), ?_⟩
  simp only [putAll_append]
  simp only [run, storeSwexnFrame, Run.value_bind, value_storeBytes, value_storeWord, writeWord, h₀, h₁, h₂, h₃,
    Option.bind_some, Run.value_pure]

theorem mappedVm_writable : ∀ a ∈ span (0x01000800#32 - 92#32) 92, mappedVm.userWritable mappedVm.cr3 a = true := by
  have hall : (span (0x01000800#32 - 92#32) 92).all (fun a => mappedVm.userWritable mappedVm.cr3 a) = true := by
    decide +kernel
  exact List.all_eq_true.mp hall

def faultUreg : Ureg := ⟨14#32, 0#32, 0, 0, 0, 0, 0, 0, 0, 0, 0, 0, 0, 0, 0, 0x01000000#32, 0, 0, 0, 0⟩

/-- The frame for the exception handler of the parent goes to the page it shares
with its child, and the child reads it in its own memory. -/
theorem swexn_stores_shared : Reach Booted KernelStep forkedVm ∧
    forkedVm.fr.frameRefCount (frameIndex (getAddrFromEntry (forkedVm.pte forkedVm.cr3 0x010007a7#32))) ≠ 1 ∧
    forkedVm.userLoad 0x7000#32 0x010007a7#32 = some 0#8 ∧
    ∃ s', ((swexnStack 0x01000800#32 faultUreg 0#32).run forkedVm).value = some s' ∧
      s'.userLoad 0x7000#32 0x010007a7#32 = some 1#8 := by
  have hi := reach_inv mappedVm_reach
  have hpd : mappedVm.cr3 ∈ mappedVm.pds := by decide +kernel
  have hw := mappedVm_writable 0x010007a7#32 (by decide)
  obtain ⟨hu, hp, -⟩ := (userWritable_iff hi hpd).mp hw
  obtain ⟨use, ho⟩ := hi.owned
  obtain ⟨-, -, hcr, -⟩ := clonePagingInfo_some ho hpd mappedVm_clone
  refine ⟨forkedVm_reach, ?_, ?_, ?_⟩
  · rw [hcr]
    exact fork_refCount hi hpd mappedVm_clone hu hp
  · obtain ⟨-, hpds, hpage⟩ := clonePagingInfo_page hi hpd mappedVm_clone
    rw [userLoad_congr hi (kernelStep_inv forkedVm_reach) hpd (hpds ▸ Finset.mem_insert_self _ _) (hpage _ _).1]
    decide +kernel
  · have hframe : forkedVm.Writable (0x01000800#32 - 92#32) 92 := fun a ha =>
      fork_mayWrite hi hpd mappedVm_clone (mappedVm_writable a ha)
    obtain ⟨l, hl⟩ := storeSwexnFrame_last faultUreg 0#32 hframe
    exact ⟨_, hl, fork_store_seen hi hpd mappedVm_clone hu hp l⟩

end Writer

end Vm

end Pebbles
