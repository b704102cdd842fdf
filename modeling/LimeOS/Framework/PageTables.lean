import Mathlib.Data.BitVec

/-!
# Page tables of the IA-32

Two levels, with pages of 4 KB under a page table and of 4 MB in the directory
itself. The processor translates an address by an entry of the directory and, for
a small page, one of the table that the entry points to (`PageTables.walk`); an access
without the right in one of them is a page fault. An entry that is read is all
that counts: `walk_large` and `walk_small` say what it comes to.
-/

namespace LimeOS

abbrev SMALL_PAGE : Nat := 2 ^ 12
abbrev LARGE_PAGE : Nat := 2 ^ 22

/-! ## Entries -/

namespace Entry

variable (e : Nat)

def Present : Prop := e % 2 = 1

def Writable : Prop := e / 2 % 2 = 1

def User : Prop := e / 4 % 2 = 1

/-- The entry is that of a 4 MB page. -/
def Large : Prop := e / 128 % 2 = 1

instance : Decidable (Present e) := inferInstanceAs (Decidable (_ = _))
instance : Decidable (Writable e) := inferInstanceAs (Decidable (_ = _))
instance : Decidable (User e) := inferInstanceAs (Decidable (_ = _))
instance : Decidable (Large e) := inferInstanceAs (Decidable (_ = _))

/-- What the entry lets an access do: in supervisor mode everything, as write protection is off there. -/
def Grants (user write : Bool) : Prop := Present e ∧ (user = true → User e ∧ (write = true → Writable e))

instance (user write : Bool) : Decidable (Grants e user write) := inferInstanceAs (Decidable (_ ∧ _))

/-- The page or the table that the entry points to. -/
def base (page : Nat) : Nat := e / page * page

variable {e}

/-- All three flags are set. -/
theorem grants_of (h : e % 8 = 7) (user write : Bool) : Grants e user write := by
  refine ⟨?_, fun _ => ⟨?_, fun _ => ?_⟩⟩
  · simp only [Present]
    omega
  · simp only [User]
    omega
  · simp only [Writable]
    omega

/-- In supervisor mode the entry has to be present. -/
theorem grants_supervisor {write : Bool} : Grants e false write ↔ Present e :=
  ⟨fun h => h.1, fun h => ⟨h, fun hu => by cases hu⟩⟩

theorem not_grants_of_not_user (h : ¬ User e) (write : Bool) : ¬ Grants e true write :=
  fun hg => h (hg.2 rfl).1

end Entry

/-- The page directory, and the words of every page of physical memory, for the tables in it. -/
structure PageTables where
  directory : Nat → Nat
  word : Nat → Nat → Nat

namespace PageTables

variable (t : PageTables)

/-- The physical address of an access to `a`; none for a page fault. -/
def walk (user write : Bool) (a : Nat) : Option Nat :=
  let pde := t.directory (a / LARGE_PAGE)
  if ¬ Entry.Grants pde user write then none
  else if Entry.Large pde then some (Entry.base pde LARGE_PAGE + a % LARGE_PAGE)
  else
    let pte := t.word (Entry.base pde SMALL_PAGE) (a / SMALL_PAGE % 1024)
    if Entry.Grants pte user write then some (Entry.base pte SMALL_PAGE + a % SMALL_PAGE) else none

variable {t} {user write : Bool} {a pde pte : Nat}

theorem walk_absent (h : ¬ Entry.Grants (t.directory (a / LARGE_PAGE)) user write) : t.walk user write a = none := by
  rw [walk, if_pos h]

theorem walk_large (h : t.directory (a / LARGE_PAGE) = pde) (hg : Entry.Grants pde user write) (hl : Entry.Large pde) :
    t.walk user write a = some (Entry.base pde LARGE_PAGE + a % LARGE_PAGE) := by
  subst h
  rw [walk, if_neg (not_not_intro hg), if_pos hl]

theorem walk_small (h : t.directory (a / LARGE_PAGE) = pde) (hg : Entry.Grants pde user write) (hl : ¬ Entry.Large pde)
    (hw : t.word (Entry.base pde SMALL_PAGE) (a / SMALL_PAGE % 1024) = pte) : t.walk user write a =
      if Entry.Grants pte user write then some (Entry.base pte SMALL_PAGE + a % SMALL_PAGE) else none := by
  subst h hw
  rw [walk, if_neg (not_not_intro hg), if_neg hl]

end PageTables

end LimeOS
