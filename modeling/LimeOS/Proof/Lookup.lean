import Mathlib.Data.List.GetD
import Mathlib.Data.Nat.Find
import LimeOS.Spec.Files

/-!
# Lookup by name

The loops of `read_dentry_by_name` come to the first entry that matches
(`readDentryByNameTo_eq`). The bytes of an entry's name are signed and those of
the name looked up are not, so a byte of `0x80` or above equals none
(`nameMatches_iff`): a lookup finds what it should exactly when the name has no
such byte, or is not in the directory (`lookup_iff`).
-/

namespace LimeOS

/-! ## The loops -/

theorem matchLoop_eq (fileName : List Byte) (fname : CString) : ∀ n j,
    (matchLoop fileName fname n j).2 = ((List.range' j n).all fun k =>
      toI8 (fileName.getD k 0#8) = ((fname.1.getD k 0#8).toNat : Int)) ∧
    ((matchLoop fileName fname n j).2 = true → (matchLoop fileName fname n j).1 = j + n)
  | 0, j => ⟨rfl, fun _ => rfl⟩
  | n + 1, j => by
    rw [matchLoop, List.range'_succ, List.all_cons]
    split
    · rename_i h
      rw [decide_eq_false h, Bool.false_and]
      exact ⟨rfl, fun hm => Bool.noConfusion hm⟩
    · rename_i h
      rw [not_not] at h
      obtain ⟨ih₁, ih₂⟩ := matchLoop_eq fileName fname n (j + 1)
      rw [decide_eq_true h, Bool.true_and]
      refine ⟨ih₁, fun hm => ?_⟩
      rw [ih₂ hm]
      omega

section

variable (img : Image)

/-- The inner loop and the test after it. -/
theorem matchLoop_matches (fname : CString) (d : Dentry) :
    (let r := matchLoop d.fileName fname (min fname.1.length MAX_NAME_LENGTH) 0
      if r.2 ∧ r.1 < MAX_NAME_LENGTH then
        if d.fileName.getD r.1 0#8 ≠ 0#8 then false else r.2
      else r.2) = nameMatches fname d := by
  obtain ⟨h₁, h₂⟩ := matchLoop_eq d.fileName fname (min fname.1.length MAX_NAME_LENGTH) 0
  simp only [nameMatches, List.range_eq_range', ← h₁]
  cases hm : (matchLoop d.fileName fname (min fname.1.length MAX_NAME_LENGTH) 0).2 with
  | false => simp
  | true =>
    rw [h₂ hm, Nat.zero_add]
    by_cases hl : min fname.1.length MAX_NAME_LENGTH < MAX_NAME_LENGTH
    · rw [if_pos ⟨rfl, hl⟩, decide_eq_false (by omega), Bool.false_or, Bool.true_and]
      by_cases hn : d.fileName.getD (min fname.1.length MAX_NAME_LENGTH) 0#8 = 0#8
      · rw [if_neg (not_not.mpr hn), decide_eq_true hn]
      · rw [if_pos hn, decide_eq_false hn]
    · rw [if_neg fun h => hl h.2, decide_eq_true (by omega), Bool.true_or, Bool.true_and]

theorem lookupLoop_eq (fname : CString) (dentry : Dentry) : ∀ n i,
    lookupLoop img fname dentry n i =
      (((List.range' i n).map (dentryAt img)).find? (nameMatches fname)).elim (-1, dentry) fun d => (0, d)
  | 0, _ => rfl
  | n + 1, i => by
    have hm := matchLoop_matches fname (dentryAt img i)
    simp only at hm
    rw [lookupLoop, List.range'_succ, List.map_cons, List.find?_cons]
    simp only [hm]
    cases nameMatches fname (dentryAt img i) with
    | true => rfl
    | false => exact lookupLoop_eq fname dentry n (i + 1)

/-- What the loops come to. -/
theorem readDentryByNameTo_eq (fname : CString) (dentry : Dentry) :
    readDentryByNameTo img fname dentry = (readDentryByName img fname).elim (-1, dentry) fun d => (0, d) := by
  rw [readDentryByNameTo, lookupLoop_eq, readDentryByName, List.range_eq_range']

end

/-! ## Names -/

/-- A signed byte equals an unsigned one only below `0x80`. -/
theorem toI8_eq_toNat {x y : Byte} : toI8 x = (y.toNat : Int) ↔ x = y ∧ y.toNat < 128 := by
  have hx := x.isLt
  rw [toI8, BitVec.toInt_eq_toNat_cond, ← BitVec.toNat_inj]
  split <;> omega

/-- The bytes of a field before its first NUL. -/
theorem untilNul_eq_iff : ∀ {l w : List Byte}, 0#8 ∉ w →
    (untilNul l = w ↔ l.take w.length = w ∧ (l.length ≤ w.length ∨ l.getD w.length 0#8 = 0#8))
  | [], [], _ => by simp [untilNul]
  | a :: l, [], _ => by simp [untilNul, List.takeWhile_cons]
  | [], b :: w, _ => by simp [untilNul]
  | a :: l, b :: w, h₀ => by
    rw [List.mem_cons, not_or] at h₀
    have ih := untilNul_eq_iff (l := l) h₀.2
    rw [untilNul] at ih
    rw [untilNul, List.takeWhile_cons]
    by_cases ha : a = 0#8
    · subst ha
      simp [h₀.1]
    · simp only [ne_eq, ha, not_false_eq_true, decide_true, if_true, List.cons.injEq, ih, List.length_cons,
        List.take_succ_cons, Nat.add_le_add_iff_right, List.getD_cons_succ, and_assoc]

/-- Two lists agree on a prefix. -/
theorem take_eq_iff {l w : List Byte} {n : Nat} (hl : n ≤ l.length) (hw : w.length = n) :
    l.take n = w ↔ ∀ j < n, l.getD j 0#8 = w.getD j 0#8 := by
  constructor
  · rintro rfl j hj
    rw [List.getD_eq_getElem?_getD, List.getD_eq_getElem?_getD, List.getElem?_take, if_pos hj]
  · intro h
    refine List.ext_getElem (by rw [List.length_take, hw]; omega) fun j h₁ h₂ => ?_
    have := h j (hw ▸ h₂)
    rwa [List.getD_eq_getElem _ _ (by omega), List.getD_eq_getElem _ _ h₂, ← List.getElem_take (j := n)] at this

/-- The bytes that count of a name. -/
theorem nameMatches_iff (fname : CString) {d : Dentry} (hd : d.fileName.length = 32) :
    nameMatches fname d = true ↔ (∀ b ∈ fname.1.take 32, b.toNat < 128) ∧ untilNul d.fileName = fname.1.take 32 := by
  have h₀ : 0#8 ∉ fname.1.take 32 := fun h => fname.2 (List.take_subset _ _ h)
  have hlen : (fname.1.take 32).length = min fname.1.length MAX_NAME_LENGTH := by
    rw [List.length_take, Nat.min_comm]
  have hget : ∀ j < (fname.1.take 32).length, fname.1.getD j 0#8 = (fname.1.take 32).getD j 0#8 := fun j hj => by
    rw [List.length_take] at hj
    rw [List.getD_eq_getElem?_getD, List.getD_eq_getElem?_getD, List.getElem?_take, if_pos (by omega)]
  rw [untilNul_eq_iff h₀, hd, take_eq_iff (by rw [hd, List.length_take]; omega) rfl]
  simp only [nameMatches, Bool.and_eq_true, List.all_eq_true, List.mem_range, decide_eq_true_eq, toI8_eq_toNat,
    Bool.or_eq_true, ← hlen]
  constructor
  · rintro ⟨h, hn⟩
    refine ⟨fun b hb => ?_, fun j hj => (h j hj).1.trans (hget j hj), hn⟩
    obtain ⟨j, hj, rfl⟩ := List.mem_iff_getElem.mp hb
    have := (h j hj).2
    rwa [hget j hj, List.getD_eq_getElem _ _ hj] at this
  · rintro ⟨hb, h, hn⟩
    refine ⟨fun j hj => ⟨(h j hj).trans (hget j hj).symm, ?_⟩, hn⟩
    rw [hget j hj, List.getD_eq_getElem _ _ hj]
    exact hb _ (List.getElem_mem hj)

/-! ## Lookups -/

section

variable (img : Image)

theorem dentryAt_matches (fname : CString) (i : Nat) :
    nameMatches fname (dentryAt img i) = true ↔
      (∀ b ∈ fname.1.take 32, b.toNat < 128) ∧ entryName img i = fname.1.take 32 :=
  nameMatches_iff fname (by simp [dentryAt])

/-- What a lookup returns and leaves in its destination. -/
structure LookupOk (fname : CString) (dentry : Dentry) : Prop where
  ret : (readDentryByNameTo img fname dentry).1 = 0 ↔ ∃ i, img.Named fname i
  found : ∀ i, img.Named fname i → (∀ j < i, ¬ img.Named fname j) →
    readDentryByNameTo img fname dentry = (0, dentryAt img i)
  missing : (∀ i, ¬ img.Named fname i) → readDentryByNameTo img fname dentry = (-1, dentry)

/-- A name without bytes of `0x80` and above is looked up in the order of the directory. -/
theorem readDentryByName_eq_some {fname : CString} (hb : ∀ b ∈ fname.1.take 32, b.toNat < 128) {i : Nat}
    (hi : img.Named fname i) (hmin : ∀ j < i, ¬ img.Named fname j) :
    readDentryByName img fname = some (dentryAt img i) := by
  rw [readDentryByName, List.find?_map, List.find?_range_eq_some.mpr]
  · rfl
  · refine ⟨(dentryAt_matches img fname i).mpr ⟨hb, hi.2⟩, List.mem_range.mpr hi.1, fun j hj => ?_⟩
    rw [Function.comp_apply, Bool.not_eq_true', ← Bool.not_eq_true, dentryAt_matches]
    exact fun h => hmin j hj ⟨hj.trans hi.1, h.2⟩

/-- Nothing is found where nothing has the name, or the name has a byte of `0x80` or above. -/
theorem readDentryByName_eq_none {fname : CString}
    (h : (∀ b ∈ fname.1.take 32, b.toNat < 128) → ∀ i, ¬ img.Named fname i) :
    readDentryByName img fname = none := by
  rw [readDentryByName, List.find?_eq_none]
  intro d hd hm
  obtain ⟨i, hi, rfl⟩ := List.mem_map.mp hd
  obtain ⟨hb, hn⟩ := (dentryAt_matches img fname i).mp hm
  exact h hb i ⟨List.mem_range.mp hi, hn⟩

/-- **Lookup by name.** `read_dentry_by_name` finds the first entry with the name, or reports that there
is none, exactly when the first 32 bytes of the name are all below `0x80`, or no entry has that name. -/
theorem lookup_iff (fname : CString) (dentry : Dentry) :
    LookupOk img fname dentry ↔ (∀ b ∈ fname.1.take 32, b.toNat < 128) ∨ ∀ i, ¬ img.Named fname i := by
  constructor
  · intro h
    by_cases hb : ∀ b ∈ fname.1.take 32, b.toNat < 128
    · exact .inl hb
    · refine .inr fun i hi => ?_
      have hr := h.ret.mpr ⟨i, hi⟩
      rw [readDentryByNameTo_eq, readDentryByName_eq_none img fun hb' => absurd hb' hb, Option.elim_none] at hr
      exact absurd hr (show (-1 : Int) ≠ 0 by decide)
  · intro h
    have hfirst : ∀ i, img.Named fname i → (∀ j < i, ¬ img.Named fname j) →
        readDentryByNameTo img fname dentry = (0, dentryAt img i) := fun i hi hmin => by
      have hb := h.resolve_right fun hn => hn i hi
      rw [readDentryByNameTo_eq, readDentryByName_eq_some img hb hi hmin, Option.elim_some]
    have hnone : (∀ i, ¬ img.Named fname i) → readDentryByNameTo img fname dentry = (-1, dentry) := fun hn => by
      rw [readDentryByNameTo_eq, readDentryByName_eq_none img fun _ => hn, Option.elim_none]
    refine ⟨⟨fun hr => ?_, fun hi => ?_⟩, hfirst, hnone⟩
    · by_contra hn
      rw [hnone (not_exists.mp hn)] at hr
      exact absurd hr (show (-1 : Int) ≠ 0 by decide)
    · classical
      rw [hfirst _ (Nat.find_spec hi) fun j hj => Nat.find_min hi hj]

end

/-- An image with one entry, whose name is the byte `0xe9`. -/
def accentImage : Image := fun a => if a = 0 then 1#8 else if a = 64 then 0xe9#8 else 0#8

/-- The name of the entry, which is not found. -/
theorem lookup_accentImage : ¬ LookupOk accentImage ⟨[0xe9#8], by decide⟩ ⟨[], 0, 0⟩ := fun h =>
  absurd (h.ret.mpr ⟨0, by decide, by decide⟩) (by decide)

end LimeOS
