import LimeOS.Spec.Blink

/-!
# The blinking characters

What `tasklet_loop` does to one element (`taskletRound_eq`), the elements of the
list and of the array (`Listed`), what each call does to them (`Listed.call`), and
from it every run of calls (`blinks_refine`).
-/

namespace LimeOS

/-! ## One element -/

theorem ticks_pos (x : BitVec 16) : 0 < ticks x := by
  simp only [ticks]
  split <;> omega

theorem toInt_sub_one (x : BitVec 16) : 0 < (x - 1#16).toInt ↔ 1 < ticks x := by
  have hlt := x.isLt
  simp only [BitVec.toInt_eq_toNat_cond, BitVec.toNat_sub, BitVec.toNat_ofNat, ticks]
  split <;> split <;> omega

theorem ticks_sub_one {x : BitVec 16} (h : 1 < ticks x) : ticks (x - 1#16) = ticks x - 1 := by
  have hlt := x.isLt
  simp only [ticks, BitVec.toNat_sub, BitVec.toNat_ofNat] at h ⊢
  split at h <;> [skip; omega]
  rw [if_pos (by omega), if_pos (by omega)]
  omega

theorem status_xor (x : BitVec 16) : (x ^^^ 1#16) &&& 1#16 = 0#16 ↔ x &&& 1#16 ≠ 0#16 := by
  have h : ∀ y : BitVec 16, y &&& 1#16 = 0#16 ↔ y.getLsbD 0 = false := by
    intro y
    constructor
    · intro hy
      have := congrArg (·.getLsbD 0) hy
      simpa using this
    · intro hy
      ext i hi
      obtain rfl | hi' := Nat.eq_zero_or_pos i
      · simpa using hy
      · simp [show i ≠ 0 by omega]
  rw [Ne, h, h]
  simp

namespace BlinkStruct

variable (b : BlinkStruct)

/-- The element after its round of `tasklet_loop`. -/
def round : BlinkStruct :=
  if b.blinker.Turns then
    { b with countdown := if b.status &&& 1#16 = 0#16 then b.onLength else b.offLength, status := b.status ^^^ 1#16 }
  else { b with countdown := b.countdown - 1#16 }

theorem turns_iff : b.blinker.Turns ↔ ¬ 0 < (b.countdown - 1#16).toInt := by
  rw [toInt_sub_one]
  exact Nat.not_lt.symm

@[simp] theorem round_next : b.round.next = b.next := by
  rw [round]
  split <;> rfl

@[simp] theorem round_location : b.round.location = b.location := by
  rw [round]
  split <;> rfl

theorem round_blinker : b.round.blinker = b.blinker.tick := by
  rw [round, Blinker.tick]
  by_cases ht : b.blinker.Turns
  · rw [if_pos ht, if_pos ht]
    simp only [blinker, ne_eq, status_xor]
    by_cases hs : b.status &&& 1#16 = 0#16 <;> simp [hs]
  · rw [if_neg ht, if_neg ht]
    have h := ticks_sub_one ((toInt_sub_one _).mp (not_not.mp (b.turns_iff.not.mp ht)))
    simp only [blinker, h]

theorem tick_shown {b : BlinkStruct} (ht : b.blinker.Turns) :
    b.blinker.tick.shown = if b.status &&& 1#16 = 0#16 then b.onChar else b.offChar := by
  rw [Blinker.tick, if_pos ht]
  by_cases hs : b.status &&& 1#16 = 0#16 <;> simp [blinker, Blinker.shown, hs]

end BlinkStruct

namespace Blinks

variable {s : Blinks}

theorem taskletRound_eq (s : Blinks) (p : Nat) : s.taskletRound p =
    ⟨Function.update s.blinkArray p (s.blinkArray p).round, s.listHead,
      if (s.blinkArray p).blinker.Turns then
        Function.update s.vmem (2 * (s.blinkArray p).blinker.location) (s.blinkArray p).blinker.tick.shown
      else s.vmem⟩ := by
  simp only [taskletRound, BlinkStruct.round]
  by_cases ht : (s.blinkArray p).blinker.Turns
  · rw [if_neg ((s.blinkArray p).turns_iff.mp ht), if_pos ht, if_pos ht]
    rw [BlinkStruct.tick_shown ht, show 2 * (s.blinkArray p).blinker.location = (s.blinkArray p).location.toNat <<< 1 by
      rw [Nat.shiftLeft_eq, Nat.mul_comm]; rfl]
    by_cases hs : (s.blinkArray p).status &&& 1#16 = 0#16
    · simp only [if_pos hs]
      rfl
    · simp only [if_neg hs]
      rfl
  · rw [if_pos (not_not.mp ((s.blinkArray p).turns_iff.not.mp ht)), if_neg ht, if_neg ht]
    rfl

theorem taskletRound_next (p q : Nat) : (s.taskletRound p).next q = s.next q := by
  rw [taskletRound_eq]
  simp only [next, Function.update_apply]
  split
  · rename_i h
    rw [BlinkStruct.round_next, h]
  · rfl

/-! ## The list -/

/-- The loop takes each element of the list through its round. -/
theorem taskletLoop_eq {h : Option Nat} {l : List Nat} {n : Nat} (hl : Linked s.next h l) (hn : l.length ≤ n) :
    taskletLoop n h s = some ⟨fun p => if p ∈ l then (s.blinkArray p).round else s.blinkArray p, s.listHead,
      pokes (l.map fun p => (s.blinkArray p).blinker) s.vmem⟩ := by
  induction l generalizing h n s with
  | nil =>
    obtain rfl := hl
    cases n <;> simp [taskletLoop, pokes]
  | cons p l ih =>
    have hnodup := List.nodup_cons.mp hl.nodup
    obtain ⟨rfl, hl⟩ := hl
    obtain ⟨n, rfl⟩ : ∃ m, n = m + 1 := ⟨n - 1, by simp only [List.length_cons] at hn; omega⟩
    rw [taskletLoop, taskletRound_next, ih (hl.congr fun q _ => taskletRound_next p q) (by simpa using hn), taskletRound_eq]
    have hmap : (l.map fun q => (Function.update s.blinkArray p (s.blinkArray p).round q).blinker) =
        l.map fun q => (s.blinkArray q).blinker := by
      refine List.map_congr_left fun q hq => ?_
      rw [Function.update_of_ne]
      rintro rfl
      exact hnodup.1 hq
    simp only [hmap, pokes, List.map_cons, List.foldl_cons, Option.some.injEq, Blinks.mk.injEq, and_true]
    funext q
    by_cases hq : q = p
    · subst hq
      simp [hnodup.1]
    · simp [hq]

/-- The list is `l`, and the elements in use are those in it. -/
structure Listed (s : Blinks) (l : List Nat) : Prop where
  chain : Linked s.next s.listHead l
  mem_iff : ∀ p, p ∈ l ↔ p < BLINKS ∧ (s.blinkArray p).location ≠ 0#16

/-- The board that the list stands for. -/
def board (s : Blinks) (l : List Nat) : Board := ⟨l.map fun p => (s.blinkArray p).blinker, s.vmem⟩

theorem replaceFirst_append {α : Type} {stop : α → Bool} {f : α → α} {a : α} (ha : stop a = true) :
    ∀ {l₁ l₂ : List α}, (∀ b ∈ l₁, stop b = false) → replaceFirst stop f (l₁ ++ a :: l₂) = l₁ ++ f a :: l₂
  | [], _, _ => by rw [List.nil_append, replaceFirst, if_pos ha, List.nil_append]
  | b :: l₁, l₂, h => by
    rw [List.cons_append, replaceFirst, h b List.mem_cons_self, if_neg (by decide),
      replaceFirst_append ha fun c hc => h c (List.mem_cons_of_mem _ hc), List.cons_append]

namespace Listed

variable {l : List Nat} {n : Nat}

theorem length_le (h : Listed s l) : l.length ≤ BLINKS := by
  have hsub : l ⊆ List.range BLINKS := fun p hp => List.mem_range.mpr ((h.mem_iff p).mp hp).1
  simpa using (List.subperm_of_subset h.chain.nodup hsub).length_le

theorem board_find (s : Blinks) (l : List Nat) (location : BitVec 16) :
    (s.board l).find location.toNat =
      (l.find? fun p => (s.blinkArray p).location = location).map fun p => (s.blinkArray p).blinker := by
  simp only [Board.find, board, List.find?_map]
  congr 2
  funext p
  simp [BlinkStruct.blinker, BitVec.toNat_inj]

theorem mp1FindHelper_eq (h : Listed s l) (hn : BLINKS ≤ n) (location : BitVec 16) :
    s.mp1FindHelper n location = some (l.find? fun p => (s.blinkArray p).location = location) :=
  Linked.walk_eq h.chain (Nat.le_trans h.length_le hn)

/-- A free element is taken when there is one. -/
theorem mp1Malloc_eq_some (h : Listed s l) {p : Nat} (hp : s.mp1Malloc = some p) :
    p < BLINKS ∧ p ∉ l ∧ l.length < BLINKS := by
  rw [mp1Malloc] at hp
  have hlt : p < BLINKS := List.mem_range.mp (List.mem_of_find?_eq_some hp)
  have hz : (s.blinkArray p).location = 0#16 := by simpa using List.find?_some hp
  have hm : p ∉ l := fun hm => ((h.mem_iff p).mp hm).2 hz
  have hsub : p :: l ⊆ List.range BLINKS := by
    refine List.cons_subset.mpr ⟨List.mem_range.mpr hlt, fun q hq => List.mem_range.mpr ((h.mem_iff q).mp hq).1⟩
  have hle := (List.subperm_of_subset (List.nodup_cons.mpr ⟨hm, h.chain.nodup⟩) hsub).length_le
  rw [List.length_cons, List.length_range] at hle
  exact ⟨hlt, hm, hle⟩

theorem mp1Malloc_eq_none (h : Listed s l) (hp : s.mp1Malloc = none) : l.length = BLINKS := by
  rw [mp1Malloc] at hp
  have hsub : List.range BLINKS ⊆ l := fun p hp' => (h.mem_iff p).mpr ⟨List.mem_range.mp hp', by
    simpa using List.find?_eq_none.mp hp p hp'⟩
  have hle := (List.subperm_of_subset List.nodup_range hsub).length_le
  rw [List.length_range] at hle
  exact Nat.le_antisymm h.length_le hle

/-! ## The calls -/

theorem add (h : Listed s l) {b : BlinkStruct} (hb : b.location ≠ 0#16) : ∃ l', Listed (s.mp1IoctlAdd b).2 l' ∧
    (s.board l).add b.blinker = ((s.mp1IoctlAdd b).1, (s.mp1IoctlAdd b).2.board l') := by
  rw [mp1IoctlAdd, Board.add]
  by_cases hlt : b.location.toNat ≥ 80 * 25
  · rw [if_pos hlt, if_pos (.inl hlt)]
    exact ⟨l, h, rfl⟩
  rw [if_neg hlt]
  cases hp : s.mp1Malloc with
  | none =>
    have hlen := h.mp1Malloc_eq_none hp
    rw [if_pos (.inr (by simp [board, hlen]))]
    exact ⟨l, h, rfl⟩
  | some p =>
    obtain ⟨hpl, hm, hlen⟩ := h.mp1Malloc_eq_some hp
    have hfits : ¬ (b.blinker.location ≥ BLINKS ∨ (s.board l).blinkers.length ≥ BLINKS) := by
      rintro (hge | hge)
      · exact hlt hge
      · simp only [board, List.length_map] at hge
        omega
    rw [if_neg hfits]
    refine ⟨p :: l, ⟨⟨rfl, ?_⟩, fun q => ?_⟩, ?_⟩
    · show Linked _ ((Function.update s.blinkArray p _ p).next) l
      rw [Function.update_self]
      refine h.chain.congr fun q hq => ?_
      show (Function.update s.blinkArray p _ q).next = _
      rw [Function.update_of_ne (by rintro rfl; exact hm hq)]
      rfl
    · show q ∈ p :: l ↔ q < BLINKS ∧ (Function.update s.blinkArray p _ q).location ≠ 0#16
      by_cases hq : q = p
      · subst hq
        simp [hpl, hb]
      · simp [hq, h.mem_iff]
    · have hrest : (l.map fun q => (Function.update s.blinkArray p
          { b with status := 1#16, countdown := b.onLength, next := s.listHead } q).blinker) =
          l.map fun q => (s.blinkArray q).blinker := by
        refine List.map_congr_left fun q hq => ?_
        rw [Function.update_of_ne (by rintro rfl; exact hm hq)]
      simp only [board, set, mp1Poke, List.map_cons, hrest, Function.update_self]
      simp [BlinkStruct.blinker, Nat.shiftLeft_eq, Nat.mul_comm]

/-- The call on the tick is a tick of the board. -/
theorem tasklet (h : Listed s l) (hn : BLINKS ≤ n) : ∃ s', s.mp1RtcTasklet n = some s' ∧ Listed s' l ∧
    (s.board l).tick = s'.board l := by
  refine ⟨_, taskletLoop_eq h.chain (Nat.le_trans h.length_le hn), ⟨h.chain.congr fun p hp => ?_, fun p => ?_⟩, ?_⟩
  · simp only [next, if_pos hp, BlinkStruct.round_next]
  · simp only [h.mem_iff p]
    split <;> simp
  · simp only [Board.tick, board, pokes, List.map_map, Board.mk.injEq, and_true]
    refine List.map_congr_left fun p hp => ?_
    simp only [Function.comp_apply, if_pos hp, BlinkStruct.round_blinker]

theorem setLink_next (q : Nat) (link : Option Nat) : (s.setLink (some q) link).next = Function.update s.next q link := by
  funext r
  simp only [Blinks.next, setLink, Blinks.set, Function.update_apply]
  split <;> rfl

/-- Storing a link leaves what the elements stand for. -/
theorem setLink_blinker (prev link : Option Nat) (r : Nat) :
    ((s.setLink prev link).blinkArray r).blinker = (s.blinkArray r).blinker ∧
      ((s.setLink prev link).blinkArray r).location = (s.blinkArray r).location := by
  cases prev with
  | none => exact ⟨rfl, rfl⟩
  | some q =>
    simp only [setLink, Blinks.set, Function.update_apply]
    split
    · rename_i h
      subst h
      exact ⟨rfl, rfl⟩
    · exact ⟨rfl, rfl⟩

theorem setLink_vmem (prev link : Option Nat) : (s.setLink prev link).vmem = s.vmem := by
  cases prev <;> rfl

/-- An element that no link leads to is freed. -/
theorem free {p : Nat} (hc : Linked s.next s.listHead l) (hp : p ∉ l)
    (hm : ∀ q, q ≠ p → (q ∈ l ↔ q < BLINKS ∧ (s.blinkArray q).location ≠ 0#16)) :
    Listed (s.mp1Free p) l ∧ (s.mp1Free p).board l = s.board l := by
  have hne : ∀ q ∈ l, Function.update s.blinkArray p clearedBlink q = s.blinkArray q := fun q hq =>
    Function.update_of_ne (by rintro rfl; exact hp hq) _ _
  refine ⟨⟨hc.congr fun q hq => congrArg BlinkStruct.next (hne q hq), fun q => ?_⟩, ?_⟩
  · by_cases hq : q = p
    · subst hq
      simp [hp, mp1Free, Blinks.set, clearedBlink]
    · simp only [hm q hq, mp1Free, Blinks.set, Function.update_of_ne hq]
  · simp only [board, Board.mk.injEq]
    exact ⟨List.map_congr_left fun q hq => congrArg BlinkStruct.blinker (hne q hq), rfl⟩

/-- The element found, with those before it and after. -/
theorem find_split {location : BitVec 16} {p : Nat}
    (hp : l.find? (fun p => (s.blinkArray p).location = location) = some p) :
    ∃ l₁ l₂, l = l₁ ++ p :: l₂ ∧ (s.blinkArray p).location = location ∧
      ∀ q ∈ l₁, (s.blinkArray q).location ≠ location := by
  obtain ⟨hloc, l₁, l₂, rfl, h⟩ := List.find?_eq_some_iff_append.mp hp
  exact ⟨l₁, l₂, rfl, by simpa using hloc, fun q hq => by simpa using h q hq⟩

/-- The links lead past the element found. -/
theorem unlinked {p : Nat} {l₁ l₂ : List Nat} (h : Listed s (l₁ ++ p :: l₂)) (hn : BLINKS < n) :
    ∃ prev, Linked.walkPrev s.next p n none s.listHead = some prev ∧
      Linked (s.setLink prev (s.next p)).next (s.setLink prev (s.next p)).listHead (l₁ ++ l₂) := by
  have hlen := h.length_le
  rw [List.length_append, List.length_cons] at hlen
  refine ⟨_, Linked.walkPrev_eq h.chain (by omega), ?_⟩
  obtain rfl | ⟨l₀, q, rfl⟩ := l₁.eq_nil_or_concat
  · exact h.chain.suffix
  · rw [List.concat_eq_append, List.getLast?_concat, Option.some_or, setLink_next, List.append_assoc]
    have hc := h.chain
    rw [List.concat_eq_append, List.append_assoc] at hc
    exact hc.unlink

theorem remove (h : Listed s l) (hn : BLINKS < n) (arg : BitVec 32) : ∃ r l', s.mp1IoctlRemove n arg = some r ∧
    Listed r.2 l' ∧ (s.board l).remove (arg.setWidth 16).toNat = (r.1, r.2.board l') := by
  rw [mp1IoctlRemove, Board.remove, h.mp1FindHelper_eq (Nat.le_of_lt hn), board_find, Option.bind_some]
  cases hp : l.find? fun p => (s.blinkArray p).location = arg.setWidth 16 with
  | none => exact ⟨_, l, rfl, h, rfl⟩
  | some p =>
    obtain ⟨l₁, l₂, rfl, hloc, hbefore⟩ := find_split hp
    obtain ⟨prev, hprev, hchain⟩ := h.unlinked hn
    have hd := h.chain.nodup
    have hpl : p ∉ l₁ ++ l₂ := (List.nodup_middle.mp hd).notMem
    simp only [hprev, Option.map_some]
    obtain ⟨hlisted, hboard⟩ := free hchain hpl fun q hq => by
      rw [(setLink_blinker prev _ q).2, ← h.mem_iff]
      simp [hq]
    refine ⟨_, l₁ ++ l₂, rfl, hlisted, ?_⟩
    rw [hboard]
    simp only [board, fun q => (setLink_blinker (s := s) prev (s.next p) q).1, setLink_vmem, Prod.mk.injEq,
      Board.mk.injEq, true_and, and_true]
    rw [List.map_append, List.eraseP_append_right, List.map_cons, List.eraseP_cons_of_pos, List.map_append]
    · simp [BlinkStruct.blinker, hloc]
    · intro b hb
      obtain ⟨q, hq, rfl⟩ := List.mem_map.mp hb
      simpa only [BlinkStruct.blinker, decide_eq_true_eq, BitVec.toNat_inj] using hbefore q hq

/-- The test of the status never has the on character moved. -/
theorem cmovl_not_taken (x : BitVec 16) : (x.setWidth 8 &&& 0x1#8).msb = false := by
  rw [BitVec.msb_and, show (0x1#8).msb = false from rfl, Bool.and_false]

/-- An element changed, but for its link and its location. -/
theorem set (h : Listed s l) {q : Nat} {b : BlinkStruct} (hnext : b.next = s.next q)
    (hlocation : b.location = (s.blinkArray q).location) :
    Listed (s.set q b) l ∧ ∀ p, ((s.set q b).blinkArray p).location = (s.blinkArray p).location := by
  have hloc : ∀ p, ((s.set q b).blinkArray p).location = (s.blinkArray p).location := fun p => by
    simp only [Blinks.set, Function.update_apply]
    split
    · rename_i hp
      rw [hp, hlocation]
    · rfl
  refine ⟨⟨h.chain.congr fun p _ => ?_, fun p => ?_⟩, hloc⟩
  · simp only [Blinks.next, Blinks.set, Function.update_apply]
    split
    · rename_i hp
      rw [hp, hnext, Blinks.next]
    · rfl
  · rw [h.mem_iff, hloc]

/-- The element found changed: on the board, the latest blinker at its location. -/
theorem set_blinkers (h : Listed s l) {location : BitVec 16} {q : Nat} {b : BlinkStruct} {f : Blinker → Blinker}
    (hq : l.find? (fun p => (s.blinkArray p).location = location) = some q)
    (hb : b.blinker = f (s.blinkArray q).blinker) :
    replaceFirst (·.location = location.toNat) f (l.map fun p => (s.blinkArray p).blinker) =
      l.map fun p => ((s.set q b).blinkArray p).blinker := by
  obtain ⟨l₁, l₂, rfl, hloc, hbefore⟩ := find_split hq
  have hnot : ∀ p ∈ l₁ ++ l₂, p ≠ q := fun p hp => by
    rintro rfl
    exact (List.nodup_middle.mp h.chain.nodup).notMem hp
  have hkeep : ∀ l' ⊆ l₁ ++ l₂, (l'.map fun p => ((s.set q b).blinkArray p).blinker) =
      l'.map fun p => (s.blinkArray p).blinker := fun l' hl' =>
    List.map_congr_left fun p hp => congrArg BlinkStruct.blinker (Function.update_of_ne (hnot p (hl' hp)) _ _)
  have hself : (s.set q b).blinkArray q = b := Function.update_self _ _ _
  rw [List.map_append, List.map_cons, List.map_append, List.map_cons, replaceFirst_append,
    hkeep l₁ (List.subset_append_left _ _), hkeep l₂ (List.subset_append_right _ _), hself, hb]
  · simp [BlinkStruct.blinker, hloc]
  · intro b' hb'
    obtain ⟨p, hp, rfl⟩ := List.mem_map.mp hb'
    simpa only [BlinkStruct.blinker, decide_eq_false_iff_not, BitVec.toNat_inj] using hbefore p hp

theorem sync (h : Listed s l) (hn : BLINKS ≤ n) (arg : BitVec 32) : ∃ r, s.mp1IoctlSync n arg = some r ∧
    Listed r.2 l ∧ (∀ p, (r.2.blinkArray p).location = (s.blinkArray p).location) ∧
    (s.board l).sync ((arg >>> 16).setWidth 16).toNat ((arg &&& 0xFFFF#32).setWidth 16).toNat = (r.1, r.2.board l) := by
  rw [mp1IoctlSync, Board.sync, h.mp1FindHelper_eq hn, h.mp1FindHelper_eq hn, board_find, board_find]
  generalize (arg >>> 16).setWidth 16 = src
  generalize (arg &&& 0xFFFF#32).setWidth 16 = dst
  cases hp : l.find? fun p => (s.blinkArray p).location = src with
  | none => exact ⟨_, rfl, h, fun _ => rfl, rfl⟩
  | some p =>
    cases hq : l.find? fun p => (s.blinkArray p).location = dst with
    | none => exact ⟨_, rfl, h, fun _ => rfl, rfl⟩
    | some q =>
      obtain ⟨-, -, -, hloc, -⟩ := find_split hq
      -- the element at `dst`, with the time of that at `src`
      have hset := h.set (q := q) (b := { s.blinkArray q with
        onLength := (s.blinkArray p).onLength, offLength := (s.blinkArray p).offLength
        countdown := (s.blinkArray p).countdown, status := (s.blinkArray p).status }) rfl rfl
      refine ⟨_, rfl, ⟨hset.1.chain, hset.1.mem_iff⟩, hset.2, ?_⟩
      simp only [board, mp1Poke, cmovl_not_taken, ne_eq, not_true_eq_false, if_false, Option.map_some, Prod.mk.injEq,
        Board.mk.injEq, true_and]
      refine ⟨h.set_blinkers (f := (·.inTime (s.blinkArray p).blinker)) hq rfl, ?_⟩
      rw [hloc, Nat.shiftLeft_eq, Nat.mul_comm]
      rfl

/-- **One call.** It ends, and the list stands for the board after the call. -/
theorem call (h : Listed s l) (hn : BLINKS < n) {c : BlinkCall} (hc : ∀ b, c = .add b → b.location ≠ 0#16) :
    ∃ r l', s.call n c = some r ∧ Listed r.2 l' ∧
      (s.board l).call c = ((r.1.1, r.1.2.map BlinkStruct.blinker), r.2.board l') := by
  cases c with
  | add b =>
    obtain ⟨l', hl', he⟩ := h.add (hc b rfl)
    exact ⟨_, l', rfl, hl', by simp only [Board.call, he, Option.map_none]⟩
  | remove arg =>
    obtain ⟨r, l', hr, hl', he⟩ := h.remove hn arg
    exact ⟨_, l', by rw [Blinks.call, hr]; rfl, hl', by simp only [Board.call, he, Option.map_none]⟩
  | find location =>
    refine ⟨_, l, by rw [Blinks.call, mp1IoctlFind, h.mp1FindHelper_eq (Nat.le_of_lt hn)]; rfl, h, ?_⟩
    simp only [Board.call, board_find]
    cases l.find? fun p => (s.blinkArray p).location = location <;> rfl
  | sync arg =>
    obtain ⟨r, hr, hl', -, he⟩ := h.sync (Nat.le_of_lt hn) arg
    exact ⟨_, l, by rw [Blinks.call, hr]; rfl, hl', by simp only [Board.call, he, Option.map_none]⟩
  | tasklet =>
    obtain ⟨s', hs, hl', he⟩ := h.tasklet (Nat.le_of_lt hn)
    exact ⟨_, l, by rw [Blinks.call, hs]; rfl, hl', by simp only [Board.call, he, Option.map_none]⟩

end Listed

end Blinks

/-! ## Runs -/

theorem blinksStart_listed (vmem : Nat → Byte) : (blinksStart vmem).Listed [] where
  chain := rfl
  mem_iff _ := by simp [blinksStart, clearedBlink]

theorem Blinks.Listed.calls {n : Nat} (hn : BLINKS < n) {cs : List BlinkCall} {s : Blinks} {l : List Nat}
    (h : s.Listed l) (hcs : ∀ b, .add b ∈ cs → b.location ≠ 0#16) :
    ∃ r l', s.calls n cs = some r ∧ r.2.Listed l' ∧
      (s.board l).calls cs = (r.1.map fun a => (a.1, a.2.map BlinkStruct.blinker), r.2.board l') := by
  induction cs generalizing s l with
  | nil => exact ⟨_, l, rfl, h, rfl⟩
  | cons c cs ih =>
    obtain ⟨r, l', hr, hl', he⟩ := h.call hn (c := c) fun b hb => hcs b (by rw [hb]; exact List.mem_cons_self)
    obtain ⟨rs, l'', hrs, hl'', he'⟩ := ih hl' fun b hb => hcs b (List.mem_cons_of_mem _ hb)
    refine ⟨(r.1 :: rs.1, rs.2), l'', by rw [Blinks.calls, hr, Option.bind_some, hrs]; rfl, hl'', ?_⟩
    simp only [Board.calls, he, he', List.map_cons]

/-- **The linked list is a board.** From the start, whatever the calls, but for a character added at location 0, every
call ends, returns what it does on the board, and leaves the screen of the board. -/
theorem blinks_refine {n : Nat} (hn : BLINKS < n) {cs : List BlinkCall} (hcs : ∀ b, .add b ∈ cs → b.location ≠ 0#16)
    (vmem : Nat → Byte) :
    ∃ r, (blinksStart vmem).calls n cs = some r ∧
      (Board.calls ⟨[], vmem⟩ cs).1 = (r.1.map fun a => (a.1, a.2.map BlinkStruct.blinker)) ∧
      (Board.calls ⟨[], vmem⟩ cs).2.vmem = r.2.vmem := by
  obtain ⟨r, l', hr, -, he⟩ := (blinksStart_listed vmem).calls hn hcs
  have hb : (blinksStart vmem).board [] = ⟨[], vmem⟩ := rfl
  rw [hb] at he
  exact ⟨r, hr, congrArg Prod.fst he, congrArg (·.2.vmem) he⟩

theorem blinks_refine_fish : ∃ r,
    (blinksStart fun _ => 0).calls 2001 [.add ⟨540, 0x49, 0x4d, 7, 6, 0, 0, none⟩, .tasklet, .remove 540] = some r ∧
    (Board.calls ⟨[], fun _ => 0⟩ [.add ⟨540, 0x49, 0x4d, 7, 6, 0, 0, none⟩, .tasklet, .remove 540]).1 =
      (r.1.map fun a => (a.1, a.2.map BlinkStruct.blinker)) ∧
    (Board.calls ⟨[], fun _ => 0⟩ [.add ⟨540, 0x49, 0x4d, 7, 6, 0, 0, none⟩, .tasklet, .remove 540]).2.vmem = r.2.vmem :=
  blinks_refine (by decide) (by simp) fun _ => 0

end LimeOS
