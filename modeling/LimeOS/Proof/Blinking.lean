import LimeOS.Proof.Blink

/-!
# The blinking, over time

The blinkers at a location take a tick with every tasklet and are left alone by
calls that do not name it (`calls_at`), and so is its cell of the screen
(`calls_vmem`). From these what a character shows (`blinker_shows`) and what a
`sync` comes to (`sync_in_time`, `sync_shows`). A character at location 0 is not
seen as in use, and the next one makes the list a circle (`origin_circle`).
-/

namespace LimeOS

/-- The call changes something at a location. -/
def BlinkCall.Names (location : Nat) : BlinkCall → Prop
  | .add b => b.location.toNat = location
  | .remove arg => (arg.setWidth 16).toNat = location
  | .sync arg => ((arg &&& 0xFFFF#32).setWidth 16).toNat = location
  | _ => False

def BlinkCall.isTick : BlinkCall → Bool
  | .tasklet => true
  | _ => false

/-! ## One blinker -/

namespace Blinker

variable {b : Blinker}

@[simp] theorem tick_location (b : Blinker) : b.tick.location = b.location := by
  rw [tick]
  split <;> rfl

@[simp] theorem tick_onTicks (b : Blinker) : b.tick.onTicks = b.onTicks := by
  rw [tick]
  split <;> rfl

@[simp] theorem tick_offTicks (b : Blinker) : b.tick.offTicks = b.offTicks := by
  rw [tick]
  split <;> rfl

theorem tick_of_turns (h : b.Turns) :
    b.tick = { b with on := !b.on, left := if b.on then b.offTicks else b.onTicks } := if_pos h

theorem tick_of_not_turns (h : ¬ b.Turns) : b.tick = { b with left := b.left - 1 } := if_neg h

theorem tick_left_pos (hon : 0 < b.onTicks) (hoff : 0 < b.offTicks) : 0 < b.tick.left := by
  by_cases h : b.Turns
  · rw [tick_of_turns h]
    cases b.on
    · exact hon
    · exact hoff
  · rw [tick_of_not_turns h]
    simp only [Turns] at h
    show 0 < b.left - 1
    omega

/-- Within its turn it does not change. -/
theorem tick_shown (h : ¬ b.Turns) : b.tick.shown = b.shown := by
  rw [tick_of_not_turns h]
  rfl

theorem iterate_shown {k : Nat} (hk : k < b.left) : (tick^[k] b).shown = b.shown := by
  induction k generalizing b with
  | zero => rfl
  | succ k ih =>
    have ht : ¬ b.Turns := by
      simp only [Turns]
      omega
    rw [Function.iterate_succ_apply, ih, tick_shown ht]
    rw [tick_of_not_turns ht]
    show k < b.left - 1
    omega

/-- From the start of its turn, by its place in the period. -/
theorem iterate_eq (hon : 0 < b.onTicks) (hoff : 0 < b.offTicks) (k : Nat) :
    tick^[k] { b with on := true, left := b.onTicks } =
      if k % (b.onTicks + b.offTicks) < b.onTicks then
        { b with on := true, left := b.onTicks - k % (b.onTicks + b.offTicks) }
      else { b with on := false, left := b.onTicks + b.offTicks - k % (b.onTicks + b.offTicks) } := by
  induction k with
  | zero => simp [hon]
  | succ k ih =>
    rw [Function.iterate_succ_apply', ih, ← Nat.mod_add_mod]
    have hlt := Nat.mod_lt k (show 0 < b.onTicks + b.offTicks by omega)
    generalize k % (b.onTicks + b.offTicks) = m at hlt
    by_cases hm : m < b.onTicks
    · rw [if_pos hm]
      by_cases hturn : m + 1 = b.onTicks
      · have hnext : (m + 1) % (b.onTicks + b.offTicks) = b.onTicks := by
          rw [hturn]
          exact Nat.mod_eq_of_lt (by omega)
        rw [hnext, if_neg (by omega),
          tick_of_turns (b := { b with on := true, left := b.onTicks - m }) (show b.onTicks - m ≤ 1 by omega)]
        simp
      · rw [Nat.mod_eq_of_lt (by omega), if_pos (by omega),
          tick_of_not_turns (b := { b with on := true, left := b.onTicks - m }) (show ¬ b.onTicks - m ≤ 1 by omega)]
        simp only [mk.injEq, true_and, and_true]
        omega
    · rw [if_neg hm]
      by_cases hturn : m + 1 = b.onTicks + b.offTicks
      · rw [hturn, Nat.mod_self, if_pos hon,
          tick_of_turns (b := { b with on := false, left := b.onTicks + b.offTicks - m })
            (show b.onTicks + b.offTicks - m ≤ 1 by omega)]
        simp
      · rw [Nat.mod_eq_of_lt (by omega), if_neg (by omega),
          tick_of_not_turns (b := { b with on := false, left := b.onTicks + b.offTicks - m })
            (show ¬ b.onTicks + b.offTicks - m ≤ 1 by omega)]
        simp only [mk.injEq, true_and, and_true]
        omega

/-- What a blinker shows that has just been added. -/
theorem iterate_added_shown (hon : 0 < b.onTicks) (hoff : 0 < b.offTicks) (k : Nat) :
    (tick^[k] { b with on := true, left := b.onTicks }).shown =
      if k % (b.onTicks + b.offTicks) < b.onTicks then b.onChar else b.offChar := by
  rw [iterate_eq hon hoff]
  split <;> rfl

/-- Two in time stay in time. -/
theorem inTime_tick (b a : Blinker) : (b.inTime a).tick = b.tick.inTime a.tick := by
  have hturns : (b.inTime a).Turns ↔ a.Turns := Iff.rfl
  have hb : ∀ c : Blinker, b.tick.inTime c = b.inTime c := fun c => by
    rw [tick]
    split <;> rfl
  rw [hb]
  by_cases h : a.Turns
  · rw [tick_of_turns h, tick_of_turns (hturns.mpr h)]
    rfl
  · rw [tick_of_not_turns h, tick_of_not_turns (hturns.not.mpr h)]
    rfl

theorem inTime_iterate (b a : Blinker) (k : Nat) : tick^[k] (b.inTime a) = (tick^[k] b).inTime (tick^[k] a) := by
  induction k generalizing a b with
  | zero => rfl
  | succ k ih =>
    rw [Function.iterate_succ_apply, inTime_tick, ih]
    rfl

end Blinker

/-! ## One location of a board -/

/-- Only the blinkers there poke a cell. -/
theorem pokes_apply (location : Nat) : ∀ (l : List Blinker) (v : Nat → Byte),
    pokes l v (2 * location) = pokes (l.filter (·.location = location)) v (2 * location) := by
  have hcongr : ∀ (l : List Blinker) {v v' : Nat → Byte}, v (2 * location) = v' (2 * location) →
      pokes l v (2 * location) = pokes l v' (2 * location) := by
    intro l
    induction l with
    | nil => exact id
    | cons b l ih =>
      intro v v' h
      refine ih ?_
      show (if b.Turns then _ else v) _ = (if b.Turns then _ else v') _
      split
      · simp only [Function.update_apply, h]
      · exact h
  intro l
  induction l with
  | nil => exact fun _ => rfl
  | cons b l ih =>
    intro v
    by_cases hb : b.location = location
    · rw [List.filter_cons_of_pos (by simpa using hb)]
      exact ih _
    · rw [List.filter_cons_of_neg (by simpa using hb), ← ih v]
      refine hcongr l ?_
      show (if b.Turns then _ else v) _ = _
      split
      · exact Function.update_of_ne (by omega) _ _
      · rfl

theorem filter_eraseP {α : Type} {stop keep : α → Bool} (h : ∀ a, stop a = true → keep a = false) :
    ∀ l : List α, (l.eraseP stop).filter keep = l.filter keep
  | [] => rfl
  | a :: l => by
    by_cases ha : stop a = true
    · rw [List.eraseP_cons_of_pos ha, List.filter_cons_of_neg (by simp [h a ha])]
    · rw [List.eraseP_cons_of_neg ha, List.filter_cons, List.filter_cons, filter_eraseP h l]

theorem filter_replaceFirst {α : Type} {stop keep : α → Bool} {f : α → α}
    (h : ∀ a, stop a = true → keep a = false ∧ keep (f a) = false) :
    ∀ l : List α, (replaceFirst stop f l).filter keep = l.filter keep
  | [] => rfl
  | a :: l => by
    rw [replaceFirst]
    split
    · rename_i ha
      rw [List.filter_cons_of_neg (by simp [(h a ha).2]), List.filter_cons_of_neg (by simp [(h a ha).1])]
    · rw [List.filter_cons, List.filter_cons, filter_replaceFirst h l]

namespace Board

variable {d : Board} {location : Nat} {b : Blinker}

/-- The blinkers at a location, the latest first. -/
def placed (d : Board) (location : Nat) : List Blinker := d.blinkers.filter (·.location = location)

theorem find_eq (d : Board) (location : Nat) : d.find location = (d.placed location).head? := by
  rw [find, placed, List.head?_filter]

theorem tick_placed (d : Board) (location : Nat) : d.tick.placed location = (d.placed location).map Blinker.tick := by
  simp only [placed, tick, List.filter_map]
  congr 2
  funext b
  simp

/-- A call that does not name the location leaves it, but for the tick. -/
theorem call_placed {c : BlinkCall} (hc : ¬ c.Names location) :
    (d.call c).2.placed location = (d.placed location).map (Blinker.tick^[if c.isTick then 1 else 0]) ∧
      (d.call c).2.vmem (2 * location) =
        if c.isTick then pokes (d.placed location) d.vmem (2 * location) else d.vmem (2 * location) := by
  cases c with
  | add b =>
    simp only [call, add, BlinkCall.isTick, Bool.false_eq_true, if_false, Function.iterate_zero, List.map_id]
    simp only [BlinkCall.Names] at hc
    split
    · exact ⟨rfl, rfl⟩
    · refine ⟨List.filter_cons_of_neg (by simpa [BlinkStruct.blinker] using hc), Function.update_of_ne ?_ _ _⟩
      simp only [BlinkStruct.blinker]
      omega
  | remove arg =>
    simp only [call, remove, BlinkCall.isTick, Bool.false_eq_true, if_false, Function.iterate_zero, List.map_id]
    simp only [BlinkCall.Names] at hc
    split
    · exact ⟨rfl, rfl⟩
    · refine ⟨filter_eraseP (fun b hb => ?_) _, rfl⟩
      simp only [decide_eq_true_eq] at hb
      simpa [hb] using hc
  | find => exact ⟨(List.map_id _).symm, rfl⟩
  | sync arg =>
    simp only [call, sync, BlinkCall.isTick, Bool.false_eq_true, if_false, Function.iterate_zero, List.map_id]
    simp only [BlinkCall.Names] at hc
    split
    · refine ⟨filter_replaceFirst (fun b hb => ?_) _, Function.update_of_ne (by omega) _ _⟩
      simp only [decide_eq_true_eq] at hb
      simpa [Blinker.inTime, hb] using hc
    · exact ⟨rfl, rfl⟩
  | tasklet => exact ⟨d.tick_placed location, pokes_apply location d.blinkers d.vmem⟩

theorem calls_placed {cs : List BlinkCall} (hcs : ∀ c ∈ cs, ¬ c.Names location) :
    (d.calls cs).2.placed location = (d.placed location).map (Blinker.tick^[cs.countP BlinkCall.isTick]) := by
  induction cs generalizing d with
  | nil => exact (List.map_id _).symm
  | cons c cs ih =>
    rw [calls, ih fun c' hc' => hcs c' (List.mem_cons_of_mem _ hc'), (call_placed (hcs c List.mem_cons_self)).1,
      List.map_map, ← Function.iterate_add, List.countP_cons]

/-- The cell of a blinker alone at its location: as it was until its turn is over, and from then on what the blinker
shows. -/
theorem calls_vmem {cs : List BlinkCall} (hcs : ∀ c ∈ cs, ¬ c.Names location) (hb : d.placed location = [b])
    (hleft : 0 < b.left) (hon : 0 < b.onTicks) (hoff : 0 < b.offTicks) :
    (d.calls cs).2.vmem (2 * location) =
      if cs.countP BlinkCall.isTick < b.left then d.vmem (2 * location)
      else (Blinker.tick^[cs.countP BlinkCall.isTick] b).shown := by
  induction cs generalizing d b with
  | nil => exact (if_pos hleft).symm
  | cons c cs ih =>
    have hcs' := fun c' hc' => hcs c' (List.mem_cons_of_mem c hc')
    obtain ⟨hplaced, hvmem⟩ := call_placed (d := d) (hcs c List.mem_cons_self)
    rw [hb] at hplaced hvmem
    rw [calls, List.countP_cons]
    cases hc : c.isTick with
    | false =>
      rw [hc] at hplaced hvmem
      rw [ih hcs' hplaced hleft hon hoff, hvmem]
      rfl
    | true =>
      rw [hc] at hplaced hvmem
      have hloc : b.location = location := by
        have hm : b ∈ d.placed location := by
          rw [hb]
          exact List.mem_singleton_self b
        simpa using (List.mem_filter.mp hm).2
      have hplaced' : (d.call c).2.placed location = [b.tick] := hplaced
      rw [ih hcs' hplaced' (Blinker.tick_left_pos hon hoff) (by simpa using hon) (by simpa using hoff), hvmem, if_pos rfl,
        if_pos rfl, Function.iterate_succ_apply]
      have hpoke : pokes [b] d.vmem (2 * location) = if b.Turns then b.tick.shown else d.vmem (2 * location) := by
        rw [← hloc, pokes, List.foldl_cons, List.foldl_nil]
        split
        · exact Function.update_self _ _ _
        · rfl
      rw [hpoke]
      by_cases ht : b.Turns
      · have ht' : ¬ cs.countP BlinkCall.isTick + 1 < b.left := by
          simp only [Blinker.Turns] at ht
          omega
        rw [if_pos ht, if_neg ht']
        split
        · rename_i hk
          exact (Blinker.iterate_shown hk).symm
        · rfl
      · have hleft' : b.tick.left = b.left - 1 := by rw [Blinker.tick_of_not_turns ht]
        rw [if_neg ht, hleft']
        simp only [show cs.countP BlinkCall.isTick < b.left - 1 ↔ cs.countP BlinkCall.isTick + 1 < b.left by omega]

theorem calls_find {cs : List BlinkCall} (hcs : ∀ c ∈ cs, ¬ c.Names location) :
    (d.calls cs).2.find location = (d.find location).map (Blinker.tick^[cs.countP BlinkCall.isTick]) := by
  rw [find_eq, find_eq, calls_placed hcs, List.head?_map]

theorem add_eq_zero (h : (d.add b).1 = 0) : (d.add b).2 =
    ⟨{ b with on := true, left := b.onTicks } :: d.blinkers, Function.update d.vmem (2 * b.location) b.onChar⟩ := by
  rw [add] at h ⊢
  split at h
  · cases h
  · rename_i hfits
    rw [if_neg hfits]

end Board

/-! ## What a character shows -/

/-- **A character blinks.** Added where there is none, and whatever the calls after that do not name its location, it
shows its two characters in turn, each for its length in ticks. -/
theorem blinker_shows {n : Nat} (hn : BLINKS < n) {cs cs' : List BlinkCall} {b : BlinkStruct} {vmem : Nat → Byte}
    {r : List (Int × Option BlinkStruct) × Blinks} (hcs : ∀ b', .add b' ∈ cs ++ cs' → b'.location ≠ 0#16)
    (hb : b.location ≠ 0#16) (hr : (blinksStart vmem).calls n cs = some r)
    (hfind : r.2.mp1FindHelper n b.location = some none) (hadd : (r.2.mp1IoctlAdd b).1 = 0)
    (hother : ∀ c ∈ cs', ¬ c.Names b.location.toNat) :
    ∃ r', (r.2.mp1IoctlAdd b).2.calls n cs' = some r' ∧ r'.2.vmem (2 * b.location.toNat) =
      if cs'.countP BlinkCall.isTick % (ticks b.onLength + ticks b.offLength) < ticks b.onLength then b.onChar
      else b.offChar := by
  obtain ⟨r₁, l, hr₁, hl, -⟩ := (blinksStart_listed vmem).calls hn fun b' h' => hcs b' (List.mem_append_left _ h')
  obtain rfl := Option.some.inj (hr₁.symm.trans hr)
  obtain ⟨l', hl', he⟩ := hl.add hb
  obtain ⟨r', l'', hr', hl'', he'⟩ := hl'.calls hn fun b' h' => hcs b' (List.mem_append_right _ h')
  refine ⟨r', hr', ?_⟩
  -- the blinker added is the only one there
  have hnone : (r₁.2.board l).placed b.location.toNat = [] := by
    rw [hl.mp1FindHelper_eq (Nat.le_of_lt hn)] at hfind
    have hf := Blinks.Listed.board_find r₁.2 l b.location
    rw [Option.some.inj hfind, Option.map_none, Board.find_eq] at hf
    exact List.head?_eq_none_iff.mp hf
  have hboard : (r₁.2.mp1IoctlAdd b).2.board l' =
      ⟨{ b.blinker with on := true, left := b.blinker.onTicks } :: (r₁.2.board l).blinkers,
        Function.update (r₁.2.board l).vmem (2 * b.location.toNat) b.onChar⟩ :=
    (congrArg Prod.snd he).symm.trans (Board.add_eq_zero ((congrArg Prod.fst he).trans hadd))
  have hplaced : ((r₁.2.mp1IoctlAdd b).2.board l').placed b.location.toNat =
      [{ b.blinker with on := true, left := b.blinker.onTicks }] := by
    rw [hboard, Board.placed, List.filter_cons_of_pos (by simp [BlinkStruct.blinker])]
    exact congrArg _ hnone
  have hcell := Board.calls_vmem hother hplaced (ticks_pos _) (ticks_pos _) (ticks_pos _)
  have hvmem : r'.2.vmem = (((r₁.2.mp1IoctlAdd b).2.board l').calls cs').2.vmem := by
    rw [he']
    rfl
  have hshown := Blinker.iterate_added_shown (b := b.blinker) (ticks_pos _) (ticks_pos _)
    (cs'.countP BlinkCall.isTick)
  have hchar : ((r₁.2.mp1IoctlAdd b).2.board l').vmem (2 * b.location.toNat) = b.onChar := by
    rw [hboard]
    exact Function.update_self _ _ _
  rw [hvmem, hcell, hshown, hchar]
  split
  · rename_i hk
    exact (if_pos (Nat.lt_of_le_of_lt (Nat.mod_le _ _) hk)).symm
  · rfl

/-- The character that `fish` adds between its frames. -/
def fishBlink : BlinkStruct := ⟨540, 0x49, 0x4d, 7, 6, 0, 0, none⟩

/-- One of a frame. -/
def frameBlink : BlinkStruct := ⟨40, 0x2f, 0x5c, 15, 15, 0, 0, none⟩

theorem blinker_shows_fish : ∃ r, (blinksStart fun _ => 0).calls 2001 [.add frameBlink] = some r ∧
    ∃ r', (r.2.mp1IoctlAdd fishBlink).2.calls 2001 [.tasklet, .find 40, .tasklet] = some r' ∧
      r'.2.vmem (2 * 540) = if 2 % (ticks 7 + ticks 6) < ticks 7 then 0x49 else 0x4d := by
  obtain ⟨r, hr, hok⟩ : ∃ r, (blinksStart fun _ => 0).calls 2001 [.add frameBlink] = some r ∧
      r.2.mp1FindHelper 2001 540 = some none ∧ (r.2.mp1IoctlAdd fishBlink).1 = 0 := by
    have h : ((blinksStart fun _ => 0).calls 2001 [.add frameBlink]).any (fun r =>
        r.2.mp1FindHelper 2001 540 = some none ∧ (r.2.mp1IoctlAdd fishBlink).1 = 0) = true := by decide +kernel
    simpa using (Option.any_eq_true _ _).mp h
  exact ⟨r, hr, blinker_shows (b := fishBlink) (by decide) (by simp [frameBlink]) (by decide) hr hok.1 hok.2
    (by simp [BlinkCall.Names, fishBlink])⟩

/-! ## Two characters in time -/

theorem find_replaceFirst {α : Type} {stop : α → Bool} {f : α → α} (h : ∀ a, stop a = true → stop (f a) = true) :
    ∀ l : List α, (replaceFirst stop f l).find? stop = (l.find? stop).map f
  | [] => rfl
  | a :: l => by
    rw [replaceFirst]
    by_cases ha : stop a = true
    · rw [if_pos ha, List.find?_cons_of_pos (h a ha), List.find?_cons_of_pos ha, Option.map_some]
    · rw [if_neg ha, List.find?_cons_of_neg ha, List.find?_cons_of_neg ha, find_replaceFirst h l]

theorem eq_singleton_of_forall {α : Type} {a : α} : ∀ {l : List α}, l.Nodup → l.head? = some a → (∀ x ∈ l, x = a) → l = [a]
  | b :: l, hd, hh, ha => by
    obtain rfl := Option.some.inj hh
    cases l with
    | nil => rfl
    | cons c l =>
      obtain rfl := ha c (by simp)
      simp at hd

namespace Blinks.Listed

variable {s : Blinks} {l : List Nat} {n : Nat} {location : BitVec 16}

/-- A blinker found on the board is that of the element found. -/
theorem found (h : Listed s l) (hn : BLINKS ≤ n) {b : Blinker} (hb : (s.board l).find location.toNat = some b) :
    ∃ p, s.mp1FindHelper n location = some (some p) ∧ (s.blinkArray p).blinker = b := by
  rw [board_find] at hb
  obtain ⟨p, hp, hpb⟩ := Option.map_eq_some_iff.mp hb
  exact ⟨p, by rw [h.mp1FindHelper_eq hn, hp], hpb⟩

theorem found_lt (h : Listed s l) (hn : BLINKS ≤ n) {p : Nat} (hp : s.mp1FindHelper n location = some (some p)) :
    p < BLINKS ∧ (s.blinkArray p).location = location := by
  rw [h.mp1FindHelper_eq hn, Option.some.injEq] at hp
  exact ⟨((h.mem_iff p).mp (List.mem_of_find?_eq_some hp)).1, by simpa using List.find?_some hp⟩

/-- Where one element only has the location. -/
theorem placed_alone (h : Listed s l) (hn : BLINKS ≤ n) {p : Nat} (hp : s.mp1FindHelper n location = some (some p))
    (halone : ∀ q < BLINKS, (s.blinkArray q).location = location → q = p) :
    (s.board l).placed location.toNat = [(s.blinkArray p).blinker] := by
  rw [h.mp1FindHelper_eq hn, Option.some.injEq] at hp
  have hfilter : l.filter (fun q => (s.blinkArray q).location = location) = [p] := by
    refine eq_singleton_of_forall (h.chain.nodup.filter _) (by rw [List.head?_filter, hp]) fun q hq => ?_
    obtain ⟨hq, hlocation⟩ := List.mem_filter.mp hq
    exact halone q ((h.mem_iff q).mp hq).1 (by simpa using hlocation)
  have hpred : ((fun b : Blinker => decide (b.location = location.toNat)) ∘ fun q => (s.blinkArray q).blinker) =
      fun q => decide ((s.blinkArray q).location = location) := by
    funext q
    simp [BlinkStruct.blinker, BitVec.toNat_inj]
  rw [Board.placed, Blinks.board, List.filter_map, hpred, hfilter]
  rfl

end Blinks.Listed

/-- After a `sync` the latest blinker at `dst` is in the time of that at `src`, which may be the same. -/
theorem Board.sync_find {d d' : Board} {src dst : Nat} (h : d.sync src dst = (0, d')) :
    ∃ a b, d.find src = some a ∧ d.find dst = some b ∧ d'.find dst = some (b.inTime a) ∧ d'.find src = some a ∧
      d' = ⟨replaceFirst (·.location = dst) (·.inTime a) d.blinkers, Function.update d.vmem (2 * dst) b.offChar⟩ := by
  rw [sync] at h
  split at h
  · rename_i a b ha hb
    obtain rfl := (congrArg Prod.snd h).symm
    have hdst := @find_replaceFirst Blinker (fun x => x.location = dst) (·.inTime a) (fun _ hx => hx)
      d.blinkers
    have hdst' : (d.blinkers.find? fun x => x.location = dst).map (·.inTime a) = some (b.inTime a) := by
      rw [show (d.blinkers.find? fun x => x.location = dst) = some b from hb, Option.map_some]
    refine ⟨a, b, ha, hb, hdst.trans hdst', ?_, rfl⟩
    by_cases hne : src = dst
    · subst hne
      obtain rfl := Option.some.inj (ha.symm.trans hb)
      exact hdst.trans hdst'
    · rw [find_eq, placed, filter_replaceFirst, ← placed, ← find_eq, ha]
      intro x hx
      simp only [decide_eq_true_eq] at hx
      simp [Blinker.inTime, hx, Ne.symm hne]
  · cases congrArg Prod.fst h

/-- **`sync` puts two characters in time** for good, whatever the calls after it that do not name them. -/
theorem sync_in_time {n : Nat} (hn : BLINKS < n) {cs cs' : List BlinkCall} {vmem : Nat → Byte} {arg : BitVec 32}
    {r : List (Int × Option BlinkStruct) × Blinks} {s : Blinks} (hcs : ∀ b, .add b ∈ cs ++ cs' → b.location ≠ 0#16)
    (hr : (blinksStart vmem).calls n cs = some r) (hs : r.2.mp1IoctlSync n arg = some (0, s))
    (hother : ∀ c ∈ cs', ¬ c.Names ((arg >>> 16).setWidth 16).toNat ∧
      ¬ c.Names ((arg &&& 0xFFFF#32).setWidth 16).toNat) :
    ∃ r' p q, s.calls n cs' = some r' ∧ r'.2.mp1FindHelper n ((arg >>> 16).setWidth 16) = some (some p) ∧
      r'.2.mp1FindHelper n ((arg &&& 0xFFFF#32).setWidth 16) = some (some q) ∧
      (r'.2.blinkArray q).blinker = (r'.2.blinkArray q).blinker.inTime (r'.2.blinkArray p).blinker := by
  obtain ⟨r₁, l, hr₁, hl, -⟩ := (blinksStart_listed vmem).calls hn fun b' h' => hcs b' (List.mem_append_left _ h')
  obtain rfl := Option.some.inj (hr₁.symm.trans hr)
  obtain ⟨r₂, hs₂, hl₂, -, he⟩ := hl.sync (Nat.le_of_lt hn) arg
  obtain rfl := Option.some.inj (hs₂.symm.trans hs)
  obtain ⟨r', l', hr', hl', he'⟩ := hl₂.calls hn fun b' h' => hcs b' (List.mem_append_right _ h')
  obtain ⟨a, b, -, -, hdst, hsrc, -⟩ := Board.sync_find he
  have hboard : r'.2.board l' = ((s.board l).calls cs').2 := by rw [he']
  have hsrc' := Board.calls_find (fun c hc => (hother c hc).1) (d := s.board l)
  have hdst' := Board.calls_find (fun c hc => (hother c hc).2) (d := s.board l)
  rw [← hboard, hsrc, Option.map_some] at hsrc'
  rw [← hboard, hdst, Option.map_some] at hdst'
  obtain ⟨p, hp, hpb⟩ := hl'.found (Nat.le_of_lt hn) hsrc'
  obtain ⟨q, hq, hqb⟩ := hl'.found (Nat.le_of_lt hn) hdst'
  refine ⟨r', p, q, hr', hp, hq, ?_⟩
  rw [hpb, hqb, Blinker.inTime_iterate]
  rfl

theorem sync_in_time_fish : ∃ r s, (blinksStart fun _ => 0).calls 2001 [.add frameBlink, .add fishBlink] = some r ∧
    r.2.mp1IoctlSync 2001 0x0028021c = some (0, s) ∧ ∃ r' p q, s.calls 2001 [.tasklet, .remove 7] = some r' ∧
      r'.2.mp1FindHelper 2001 40 = some (some p) ∧ r'.2.mp1FindHelper 2001 540 = some (some q) ∧
      (r'.2.blinkArray q).blinker = (r'.2.blinkArray q).blinker.inTime (r'.2.blinkArray p).blinker := by
  obtain ⟨r, hr, s, hs⟩ : ∃ r, (blinksStart fun _ => 0).calls 2001 [.add frameBlink, .add fishBlink] = some r ∧
      ∃ s, r.2.mp1IoctlSync 2001 0x0028021c = some (0, s) := by
    have h : ((blinksStart fun _ => 0).calls 2001 [.add frameBlink, .add fishBlink]).any (fun r =>
        (r.2.mp1IoctlSync 2001 0x0028021c).map (·.1) = some 0) = true := by decide +kernel
    simpa using (Option.any_eq_true _ _).mp h
  exact ⟨r, s, hr, hs, sync_in_time (by decide) (by simp [frameBlink, fishBlink]) hr hs (by simp [BlinkCall.Names])⟩

/-- An addition that succeeds. -/
theorem Blinks.mp1IoctlAdd_eq_zero {s : Blinks} {b : BlinkStruct} (h : (s.mp1IoctlAdd b).1 = 0) :
    ∃ p, s.mp1Malloc = some p ∧ (s.mp1IoctlAdd b).2.listHead = some p ∧
      (s.mp1IoctlAdd b).2.next p = s.listHead ∧
      (s.mp1IoctlAdd b).2.blinkArray = Function.update s.blinkArray p
        { b with status := 1#16, countdown := b.onLength, next := s.listHead } := by
  rw [mp1IoctlAdd] at h ⊢
  split at h
  · cases h
  · cases hp : s.mp1Malloc with
    | none =>
      rw [hp] at h
      cases h
    | some p =>
      rename_i hlt
      rw [if_neg hlt]
      refine ⟨p, rfl, rfl, ?_, rfl⟩
      show (Function.update s.blinkArray p _ p).next = _
      rw [Function.update_self]

/-- **What a character shows after a `sync`** that is alone at its location, whatever the calls that do not name it:
its off character until its turn is over, whichever it is, and from then on what it should. -/
theorem sync_shows {n : Nat} (hn : BLINKS < n) {cs cs' : List BlinkCall} {vmem : Nat → Byte} {arg : BitVec 32}
    {r : List (Int × Option BlinkStruct) × Blinks} {s : Blinks} (hcs : ∀ b, .add b ∈ cs ++ cs' → b.location ≠ 0#16)
    (hr : (blinksStart vmem).calls n cs = some r) (hs : r.2.mp1IoctlSync n arg = some (0, s))
    (halone : ∀ p < BLINKS, ∀ q < BLINKS, (r.2.blinkArray p).location = (arg &&& 0xFFFF#32).setWidth 16 →
      (r.2.blinkArray q).location = (arg &&& 0xFFFF#32).setWidth 16 → p = q)
    (hother : ∀ c ∈ cs', ¬ c.Names ((arg &&& 0xFFFF#32).setWidth 16).toNat) :
    ∃ r' p q, s.calls n cs' = some r' ∧ s.mp1FindHelper n ((arg &&& 0xFFFF#32).setWidth 16) = some (some p) ∧
      r'.2.mp1FindHelper n ((arg &&& 0xFFFF#32).setWidth 16) = some (some q) ∧
      r'.2.vmem (2 * ((arg &&& 0xFFFF#32).setWidth 16).toNat) =
        if cs'.countP BlinkCall.isTick < (s.blinkArray p).blinker.left then (s.blinkArray p).offChar
        else (r'.2.blinkArray q).blinker.shown := by
  obtain ⟨r₁, l, hr₁, hl, -⟩ := (blinksStart_listed vmem).calls hn fun b' h' => hcs b' (List.mem_append_left _ h')
  obtain rfl := Option.some.inj (hr₁.symm.trans hr)
  obtain ⟨r₂, hs₂, hl₂, hlocation, he⟩ := hl.sync (Nat.le_of_lt hn) arg
  obtain rfl := Option.some.inj (hs₂.symm.trans hs)
  obtain ⟨r', l', hr', hl', he'⟩ := hl₂.calls hn fun b' h' => hcs b' (List.mem_append_right _ h')
  obtain ⟨a, b, -, -, hdst, -, hd⟩ := Board.sync_find he
  generalize (arg &&& 0xFFFF#32).setWidth 16 = dst at *
  have hboard : r'.2.board l' = ((s.board l).calls cs').2 := by rw [he']
  obtain ⟨p, hp, hpb⟩ := hl₂.found (Nat.le_of_lt hn) hdst
  have hplaced := hl₂.placed_alone (Nat.le_of_lt hn) hp fun q hq hqd =>
    halone q hq p (hl₂.found_lt (Nat.le_of_lt hn) hp).1 ((hlocation q).symm.trans hqd)
      ((hlocation p).symm.trans (hl₂.found_lt (Nat.le_of_lt hn) hp).2)
  have hq := Board.calls_find hother (d := s.board l)
  rw [← hboard, Board.find_eq (s.board l), hplaced, List.head?_cons, Option.map_some] at hq
  obtain ⟨q, hq, hqb⟩ := hl'.found (Nat.le_of_lt hn) hq
  refine ⟨r', p, q, hr', hp, hq, ?_⟩
  have hcell := Board.calls_vmem hother hplaced (ticks_pos _) (ticks_pos _) (ticks_pos _)
  have hvmem : r'.2.vmem = ((s.board l).calls cs').2.vmem := congrArg Board.vmem hboard
  have hoff : (s.board l).vmem (2 * dst.toNat) = (s.blinkArray p).offChar := by
    have hb : (s.blinkArray p).offChar = b.offChar := congrArg Blinker.offChar hpb
    rw [hb, hd]
    exact Function.update_self _ _ _
  rw [hvmem, hcell, hqb, hoff]

theorem sync_shows_fish : ∃ r s, (blinksStart fun _ => 0).calls 2001 [.add frameBlink] = some r ∧
    r.2.mp1IoctlSync 2001 0x00280028 = some (0, s) ∧ ∃ r' p q, s.calls 2001 [.tasklet] = some r' ∧
      s.mp1FindHelper 2001 40 = some (some p) ∧ r'.2.mp1FindHelper 2001 40 = some (some q) ∧ r'.2.vmem (2 * 40) =
        if 1 < (s.blinkArray p).blinker.left then (s.blinkArray p).offChar else (r'.2.blinkArray q).blinker.shown := by
  obtain ⟨r, hr, hadd, s, hs⟩ : ∃ r, (blinksStart fun _ => 0).calls 2001 [.add frameBlink] = some r ∧
      ((blinksStart fun _ => 0).mp1IoctlAdd frameBlink).1 = 0 ∧ ∃ s, r.2.mp1IoctlSync 2001 0x00280028 = some (0, s) := by
    have h : ((blinksStart fun _ => 0).calls 2001 [.add frameBlink]).any (fun r =>
        ((blinksStart fun _ => 0).mp1IoctlAdd frameBlink).1 = 0 ∧
          (r.2.mp1IoctlSync 2001 0x00280028).map (·.1) = some 0) = true := by decide +kernel
    simpa using (Option.any_eq_true _ _).mp h
  obtain ⟨p, -, -, -, harray⟩ := Blinks.mp1IoctlAdd_eq_zero hadd
  have honly : ∀ q, (r.2.blinkArray q).location = 40 → q = p := by
    intro q hq
    by_contra hne
    simp only [Blinks.calls, Blinks.call, Option.bind_some, Option.map_some, Option.some.injEq] at hr
    subst hr
    dsimp only at hq
    rw [harray, Function.update_of_ne hne] at hq
    cases hq
  exact ⟨r, s, hr, hs, sync_shows (by decide) (by simp [frameBlink]) hr hs
    (fun a _ b _ ha hb => (honly a ha).trans (honly b hb).symm) (by simp [BlinkCall.Names])⟩

/-! ## Location 0 -/

/-- From an element that leads to itself the loop does not end. -/
theorem Blinks.taskletLoop_self {s : Blinks} {p : Nat} (h : s.next p = some p) : ∀ n, taskletLoop n (some p) s = none
  | 0 => rfl
  | n + 1 => by
    have h' : (s.taskletRound p).next p = some p := (taskletRound_next p p).trans h
    rw [taskletLoop, h']
    exact taskletLoop_self h' n

/-- **A character at location 0 is not seen as in use**: the next one added takes its element, which then leads to
itself, and no tick ends, nor a search for another location. -/
theorem origin_circle {s : Blinks} {b₀ b₁ : BlinkStruct} (h₀ : b₀.location = 0#16)
    (hadd₀ : (s.mp1IoctlAdd b₀).1 = 0) (h₁ : b₁.location.toNat < BLINKS) (m : Nat) :
    ((s.mp1IoctlAdd b₀).2.mp1IoctlAdd b₁).1 = 0 ∧
      (∃ p, s.mp1Malloc = some p ∧ (s.mp1IoctlAdd b₀).2.mp1Malloc = some p ∧
        ((s.mp1IoctlAdd b₀).2.mp1IoctlAdd b₁).2.next p = some p) ∧
      ((s.mp1IoctlAdd b₀).2.mp1IoctlAdd b₁).2.mp1RtcTasklet m = none ∧
      ∀ location ≠ b₁.location, ((s.mp1IoctlAdd b₀).2.mp1IoctlAdd b₁).2.mp1FindHelper m location = none := by
  obtain ⟨p, hp, hhead, -, harray⟩ := Blinks.mp1IoctlAdd_eq_zero hadd₀
  -- the element just taken is the first one that looks free
  have hagain : (s.mp1IoctlAdd b₀).2.mp1Malloc = some p := by
    rw [Blinks.mp1Malloc] at hp
    have hfree : (s.blinkArray p).location = 0#16 := by simpa using List.find?_some hp
    have hsame : (fun q => decide (((s.mp1IoctlAdd b₀).2.blinkArray q).location = 0#16)) =
        fun q => decide ((s.blinkArray q).location = 0#16) := by
      funext q
      rw [harray, Function.update_apply]
      split
      · rename_i hq
        subst hq
        simp [h₀, hfree]
      · rfl
    rw [Blinks.mp1Malloc, hsame, hp]
  have hadd₁ : ((s.mp1IoctlAdd b₀).2.mp1IoctlAdd b₁).1 = 0 := by
    rw [Blinks.mp1IoctlAdd, hagain, if_neg (show ¬ b₁.location.toNat ≥ 80 * 25 from Nat.not_le.mpr h₁)]
  obtain ⟨q, hq, hhead', hnext, harray'⟩ := Blinks.mp1IoctlAdd_eq_zero hadd₁
  obtain rfl := Option.some.inj (hq.symm.trans hagain)
  rw [hhead] at hnext
  refine ⟨hadd₁, ⟨q, hp, hagain, hnext⟩, ?_⟩
  generalize ((s.mp1IoctlAdd b₀).2.mp1IoctlAdd b₁).2 = s₂ at *
  refine ⟨?_, fun location hne => ?_⟩
  · rw [Blinks.mp1RtcTasklet, hhead']
    exact Blinks.taskletLoop_self hnext m
  · rw [Blinks.mp1FindHelper, hhead']
    refine Linked.walk_self hnext ?_ m
    rw [harray', Function.update_self]
    simpa using hne.symm

theorem origin_circle_fish : (((blinksStart fun _ => 0).mp1IoctlAdd { fishBlink with location := 0 }).2.mp1IoctlAdd
    fishBlink).2.mp1RtcTasklet 2001 = none :=
  (@origin_circle (blinksStart fun _ => 0) { fishBlink with location := 0 } fishBlink rfl (by decide +kernel) (by decide)
    2001).2.2.1

end LimeOS
