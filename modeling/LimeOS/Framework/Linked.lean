import Mathlib.Data.List.Nodup
import Mathlib.Logic.Function.Basic

/-!
# Linked lists in memory

Cells at addresses, each with the address of the next: a list of addresses is
the chain from a link (`Linked`). There is at most one (`Linked.unique`), so that
no cell is in it twice (`Linked.nodup`). A walk that stops at the first cell
with a property comes to where `List.find?` does (`Linked.walk_eq`), and a walk
for the link that leads to a cell comes to that of the cell before it
(`Linked.walkPrev_eq`). From a cell that leads to itself a walk does not end
(`Linked.walk_self`).
-/

namespace LimeOS

variable {α : Type} {next next' : α → Option α}

/-- The cells from a link on, in order. -/
def Linked (next : α → Option α) : Option α → List α → Prop
  | h, [] => h = none
  | h, p :: l => h = some p ∧ Linked next (next p) l

namespace Linked

variable {h : Option α} {l l' : List α} {p q : α}

theorem unique (hl : Linked next h l) (hl' : Linked next h l') : l = l' := by
  induction l generalizing h l' with
  | nil =>
    obtain rfl := hl
    cases l' with
    | nil => rfl
    | cons p l' => cases hl'.1
  | cons p l ih =>
    obtain ⟨rfl, hl⟩ := hl
    cases l' with
    | nil => cases hl'
    | cons q l' =>
      obtain ⟨hq, hl'⟩ := hl'
      obtain rfl := Option.some.inj hq
      rw [ih hl hl']

/-- Only the links of its cells matter. -/
theorem congr (hl : Linked next h l) (heq : ∀ p ∈ l, next' p = next p) : Linked next' h l := by
  induction l generalizing h with
  | nil => exact hl
  | cons p l ih =>
    refine ⟨hl.1, ?_⟩
    rw [heq p List.mem_cons_self]
    exact ih hl.2 fun q hq => heq q (List.mem_cons_of_mem _ hq)

/-- The chain from the link after one of its cells. -/
theorem suffix (hl : Linked next h (l ++ p :: l')) : Linked next (next p) l' := by
  induction l generalizing h with
  | nil => exact hl.2
  | cons q l ih => exact ih hl.2

theorem nodup (hl : Linked next h l) : l.Nodup := by
  induction l generalizing h with
  | nil => exact List.nodup_nil
  | cons p l ih =>
    refine List.nodup_cons.mpr ⟨fun hp => ?_, ih hl.2⟩
    -- from its second occurrence the rest would be as long as from the first
    obtain ⟨s, t, rfl⟩ := List.append_of_mem hp
    have h := congrArg List.length (hl.2.unique hl.2.suffix)
    simp only [List.length_append, List.length_cons] at h
    omega

/-- A walk along the links that stops at the first cell with a property. -/
def walk (next : α → Option α) (stop : α → Bool) : Nat → Option α → Option (Option α)
  | _, none => some none
  | 0, some _ => none
  | n + 1, some p => if stop p then some (some p) else walk next stop n (next p)

theorem walk_eq {stop : α → Bool} {n : Nat} (hl : Linked next h l) (hn : l.length ≤ n) :
    walk next stop n h = some (l.find? stop) := by
  induction l generalizing h n with
  | nil =>
    obtain rfl := hl
    cases n <;> rfl
  | cons p l ih =>
    obtain ⟨rfl, hl⟩ := hl
    obtain ⟨n, rfl⟩ : ∃ m, n = m + 1 := ⟨n - 1, by simp only [List.length_cons] at hn; omega⟩
    rw [walk, List.find?_cons]
    cases hp : stop p with
    | true => rfl
    | false => exact ih hl (by simpa using hn)

/-- From a cell that leads to itself the walk does not end. -/
theorem walk_self {stop : α → Bool} (hn : next p = some p) (hp : stop p = false) : ∀ n, walk next stop n (some p) = none
  | 0 => rfl
  | n + 1 => by
    rw [walk, hp, hn]
    exact walk_self hn hp n

variable [DecidableEq α]

/-- A walk for the link to a cell: the cell that has it, or none for the head. -/
def walkPrev (next : α → Option α) (p : α) : Nat → Option α → Option α → Option (Option α)
  | 0, _, _ => none
  | n + 1, prev, link => if link = some p then some prev else link.bind fun q => walkPrev next p n (some q) (next q)

/-- It comes to the last of the cells before. -/
theorem walkPrev_eq {prev : Option α} {n : Nat} (hl : Linked next h (l ++ p :: l')) (hn : l.length < n) :
    walkPrev next p n prev h = some (l.getLast?.or prev) := by
  induction l generalizing h n prev with
  | nil =>
    obtain ⟨rfl, -⟩ := hl
    obtain ⟨n, rfl⟩ : ∃ m, n = m + 1 := ⟨n - 1, by simp only [List.length_nil] at hn; omega⟩
    rw [walkPrev, if_pos rfl]
    rfl
  | cons q l ih =>
    have hne : q ≠ p := by
      rintro rfl
      have hd := hl.nodup
      simp at hd
    obtain ⟨rfl, hl⟩ := hl
    obtain ⟨n, rfl⟩ : ∃ m, n = m + 1 := ⟨n - 1, by simp only [List.length_cons] at hn; omega⟩
    rw [walkPrev, if_neg (by simpa using hne), Option.bind_some, ih hl (by simpa using hn)]
    cases l with
    | nil => rfl
    | cons r l => rw [List.getLast?_cons_cons, Option.or_of_isSome (by simp), Option.or_of_isSome (by simp)]

/-- The link to a cell led past it, where it is not the head. -/
theorem unlink (hl : Linked next h (l ++ q :: p :: l')) :
    Linked (Function.update next q (next p)) h (l ++ q :: l') := by
  induction l generalizing h with
  | nil =>
    refine ⟨hl.1, ?_⟩
    rw [Function.update_self]
    have hd := hl.nodup
    refine hl.2.2.congr fun r hr => Function.update_of_ne ?_ _ _
    rintro rfl
    simp [hr] at hd
  | cons r l ih =>
    have hne : r ≠ q := by
      rintro rfl
      have hd := hl.nodup
      simp at hd
    refine ⟨hl.1, ?_⟩
    rw [Function.update_of_ne hne]
    exact ih hl.2

end Linked

end LimeOS
