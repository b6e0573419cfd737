import Mathlib

/-!
# Private address spaces

Tasks with memory of their own: a page is mapped with given initial contents,
unmapped, or written by its task; a fork copies all pages of one task. No step
touches the memory of a task other than the one it names.
-/

namespace Private

variable {τ π γ : Type*} [DecidableEq τ] [DecidableEq π]

@[ext] structure Spaces (τ π γ : Type*) where
  live : Finset τ
  page : τ → π → Option γ

def Spaces.set (S : Spaces τ π γ) (t : τ) (p : π) (c : Option γ) : Spaces τ π γ :=
  { S with page := fun u q => if u = t ∧ q = p then c else S.page u q }

inductive Step (zero : γ) : Spaces τ π γ → Spaces τ π γ → Prop
  | create {S t} : t ∉ S.live → Step zero S
      ⟨insert t S.live, fun u => if u = t then fun _ => none else S.page u⟩
  | map {S t p} : t ∈ S.live → S.page t p = none → Step zero S (S.set t p (some zero))
  | unmap {S t p} : t ∈ S.live → Step zero S (S.set t p none)
  | write {S t p c c'} : t ∈ S.live → S.page t p = some c → Step zero S (S.set t p (some c'))
  | fork {S t t'} : t ∈ S.live → t' ∉ S.live → Step zero S
      ⟨insert t' S.live, fun u => if u = t' then S.page t else S.page u⟩
  | free {S t} : t ∈ S.live → Step zero S ⟨S.live.erase t, fun u => if u = t then fun _ => none else S.page u⟩

end Private
