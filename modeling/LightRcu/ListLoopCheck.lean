import LightRcu.ListUnlinking
import LightRcu.PointerWalks

/-!
# What the loop checker finds

`lrcu_list_check_loop` marks one node, the first one behind the depth, and
waits to meet it again.  A cycle that is entered later does not contain the
marked node, so there the check runs for ever, unless the cycle is a node that
points to itself.  A list without cycles fails the last assertion as soon as it
is as long as the depth.
-/

namespace LightRcu

/-- What `lrcu_list_check_loop` has done when its fuel is used up. -/
inductive LoopCheckOutcome
  | passes
  | fails
  | runsOn
  deriving DecidableEq, Repr

variable {Addr : Type*} [DecidableEq Addr]

/-- `lrcu_list_check_loop` from the element `e` on. -/
def lrcuListCheckLoopWithin (next : Addr → Option Addr) :
    Nat → Option Addr → Nat → Option Addr → LoopCheckOutcome
  | 0, _, _, _ => .runsOn
  | _ + 1, none, cnt, _ => if cnt < lrcuListCheckLoopDepth then .passes else .fails
  | fuel + 1, some e, cnt, t =>
      if next e = some e ∨ t = some e then
        .fails
      else
        lrcuListCheckLoopWithin next fuel (next e) (cnt + 1)
          (if lrcuListCheckLoopDepth < cnt + 1 ∧ t = none then some e else t)

/-- The check as a whole. -/
def loopCheckOutcome (next : Addr → Option Addr) (head : Option Addr) (fuel : Nat) :
    LoopCheckOutcome :=
  lrcuListCheckLoopWithin next fuel head 0 none

variable {next : Addr → Option Addr} {head : Option Addr} {addrs : List Addr}

private theorem checkLoopWithin_passes_iff (fuel : Nat) (e : Option Addr) (cnt : Nat)
    (t : Option Addr) :
    lrcuListCheckLoopWithin next fuel e cnt t = .passes ↔
      ∃ last, lrcuListCheckLoopFrom next fuel e cnt t = some last ∧
        last < lrcuListCheckLoopDepth := by
  induction fuel generalizing e cnt t with
  | zero => simp [lrcuListCheckLoopWithin, lrcuListCheckLoopFrom]
  | succ fuel ih =>
      cases e with
      | none => simp [lrcuListCheckLoopWithin, lrcuListCheckLoopFrom]
      | some e =>
          rw [lrcuListCheckLoopWithin, lrcuListCheckLoopFrom]
          by_cases failed : next e = some e ∨ t = some e
          · simp [failed]
          · rw [if_neg failed, if_neg failed]
            exact ih _ _ _

/-- The operations of `list.h` go on behind the check exactly when it passes. -/
theorem lrcuListCheckLoop_iff_passes (next : Addr → Option Addr) (head : Option Addr)
    (fuel : Nat) :
    lrcuListCheckLoop true fuel (next, head) = true ↔
      loopCheckOutcome next head fuel = .passes := by
  rw [loopCheckOutcome, checkLoopWithin_passes_iff, lrcuListCheckLoop, if_pos rfl]
  cases lrcuListCheckLoopFrom next fuel head 0 none <;> simp

/-! ## One iteration -/

/-- Neither assertion of the loop body fails at the node that the walk visits
after the given number of steps. -/
def IterationPasses (next : Addr → Option Addr) (head : Option Addr) (steps : Nat) : Prop :=
  ∃ e, pointerWalk next head steps = some e ∧ next e ≠ some e ∧
    (lrcuListCheckLoopDepth < steps →
      pointerWalk next head lrcuListCheckLoopDepth ≠ some e)

/-- The marked node, after the given number of iterations. -/
private def markedNode (next : Addr → Option Addr) (head : Option Addr) (steps : Nat) :
    Option Addr :=
  if lrcuListCheckLoopDepth < steps then pointerWalk next head lrcuListCheckLoopDepth else none

private theorem checkLoopWithin_succ {steps : Nat} (passes : IterationPasses next head steps)
    (fuel : Nat) :
    lrcuListCheckLoopWithin next (fuel + 1) (pointerWalk next head steps) steps
        (markedNode next head steps) =
      lrcuListCheckLoopWithin next fuel (pointerWalk next head (steps + 1)) (steps + 1)
        (markedNode next head (steps + 1)) := by
  obtain ⟨e, visits, notSelf, notMarked⟩ := passes
  have unmarked : markedNode next head steps ≠ some e := by
    unfold markedNode
    split_ifs with late
    · exact notMarked late
    · simp
  have marks : (if lrcuListCheckLoopDepth < steps + 1 ∧ markedNode next head steps = none
      then some e else markedNode next head steps) = markedNode next head (steps + 1) := by
    rcases lt_trichotomy steps lrcuListCheckLoopDepth with early | now | late
    · have before : markedNode next head steps = none := if_neg (by omega)
      have after : markedNode next head (steps + 1) = none := if_neg (by omega)
      rw [if_neg (by omega), before, after]
    · have before : markedNode next head steps = none := if_neg (by omega)
      have after : markedNode next head (steps + 1) = some e := by
        rw [markedNode, if_pos (by omega), ← now, visits]
      rw [if_pos ⟨by omega, before⟩, after]
    · -- the node was marked in an earlier iteration
      obtain ⟨marked, found⟩ := pointerWalk_some_of_le visits late.le
      have before : markedNode next head steps = some marked := (if_pos late).trans found
      have after : markedNode next head (steps + 1) = some marked :=
        (if_pos (late.trans (Nat.lt_succ_self steps))).trans found
      rw [before, after, if_neg (by simp)]
  rw [visits, lrcuListCheckLoopWithin, if_neg (not_or.mpr ⟨notSelf, unmarked⟩), marks,
    pointerWalk_next visits]

private theorem loopCheckOutcome_add {steps : Nat}
    (passes : ∀ earlier < steps, IterationPasses next head earlier) (fuel : Nat) :
    loopCheckOutcome next head (fuel + steps) =
      lrcuListCheckLoopWithin next fuel (pointerWalk next head steps) steps
        (markedNode next head steps) := by
  induction steps generalizing fuel with
  | zero => rfl
  | succ steps ih =>
      have before : ∀ earlier < steps, IterationPasses next head earlier :=
        fun earlier inside => passes earlier (inside.trans (Nat.lt_succ_self steps))
      rw [← checkLoopWithin_succ (passes steps (Nat.lt_succ_self steps)), ← ih before]
      congr 1
      omega

/-! ## Verdicts -/

private theorem checkLoopWithin_stable (next : Addr → Option Addr) {fuel : Nat}
    {e : Option Addr} {cnt : Nat} {t : Option Addr} {outcome : LoopCheckOutcome}
    (ended : lrcuListCheckLoopWithin next fuel e cnt t = outcome) (verdict : outcome ≠ .runsOn)
    (more : Nat) : lrcuListCheckLoopWithin next (fuel + more) e cnt t = outcome := by
  induction fuel generalizing e cnt t with
  | zero => exact absurd ended.symm verdict
  | succ fuel ih =>
      have shifted : fuel + 1 + more = fuel + more + 1 := by omega
      rw [shifted]
      cases e with
      | none => exact ended
      | some e =>
          rw [lrcuListCheckLoopWithin] at ended ⊢
          by_cases failed : next e = some e ∨ t = some e
          · rwa [if_pos failed] at ended ⊢
          · rw [if_neg failed] at ended ⊢
            exact ih ended

theorem loopCheckOutcome_unique {fuel fuel' : Nat}
    (ended : loopCheckOutcome next head fuel ≠ .runsOn)
    (ended' : loopCheckOutcome next head fuel' ≠ .runsOn) :
    loopCheckOutcome next head fuel = loopCheckOutcome next head fuel' := by
  have first := checkLoopWithin_stable next rfl ended fuel'
  have second := checkLoopWithin_stable next rfl ended' fuel
  rw [Nat.add_comm fuel' fuel] at second
  exact first.symm.trans second

/-- In a list without cycles the assertions of the loop hold, and the last one
holds when the list is short. -/
theorem loopCheckOutcome_of_walkEnds (ends : WalkEnds next head) :
    ∃ fuel, loopCheckOutcome next head fuel =
      if ∃ steps < lrcuListCheckLoopDepth, pointerWalk next head steps = none
      then .passes else .fails := by
  have noCycle : ∀ steps round, ¬ CyclesAt next head steps round :=
    fun steps round cycles => not_walkEnds_of_walkCycles ⟨steps, round, cycles⟩ ends
  obtain ⟨addrs, chain⟩ := walkEnds_iff_chain.mp ends
  have ended : pointerWalk next head addrs.length = none := by
    rw [chain.pointerWalk_eq, List.getElem?_eq_none (Nat.le_refl _)]
  have passes : ∀ earlier < addrs.length, IterationPasses next head earlier := by
    intro steps inside
    have visits : pointerWalk next head steps = some addrs[steps] := by
      rw [chain.pointerWalk_eq, List.getElem?_eq_getElem inside]
    refine ⟨addrs[steps], visits, fun same => ?_, fun late marked => ?_⟩
    · exact noCycle steps 1 ⟨Nat.one_pos, _, visits, (pointerWalk_next visits).trans same⟩
    · refine noCycle lrcuListCheckLoopDepth (steps - lrcuListCheckLoopDepth)
        ⟨Nat.sub_pos_of_lt late, _, marked, ?_⟩
      rw [Nat.add_sub_cancel' late.le]
      exact visits
  have short : addrs.length < lrcuListCheckLoopDepth ↔
      ∃ steps < lrcuListCheckLoopDepth, pointerWalk next head steps = none := by
    constructor
    · exact fun short => ⟨addrs.length, short, ended⟩
    · rintro ⟨steps, inside, done⟩
      rw [chain.pointerWalk_eq] at done
      exact (List.getElem?_eq_none_iff.mp done).trans_lt inside
  refine ⟨1 + addrs.length, ?_⟩
  rw [loopCheckOutcome_add passes, ended, lrcuListCheckLoopWithin]
  simp only [short]

/-- The nodes at which the loop stops, as cycles of the walk. -/
private theorem not_iterationPasses_iff (cycles : WalkCycles next head) :
    (∃ steps, ¬ IterationPasses next head steps) ↔
      (∃ steps, CyclesAt next head steps 1) ∨
        ∃ steps ≤ lrcuListCheckLoopDepth, ∃ round, CyclesAt next head steps round := by
  constructor
  · rintro ⟨steps, stops⟩
    have goesOn : pointerWalk next head steps ≠ none :=
      fun ended => not_walkEnds_of_walkCycles cycles ⟨steps, ended⟩
    obtain ⟨e, visits⟩ := Option.ne_none_iff_exists'.mp goesOn
    by_cases same : next e = some e
    · exact Or.inl ⟨steps, Nat.one_pos, e, visits, (pointerWalk_next visits).trans same⟩
    · have marked : lrcuListCheckLoopDepth < steps ∧
          pointerWalk next head lrcuListCheckLoopDepth = some e := by
        by_contra unmarked
        exact stops ⟨e, visits, same, fun late found => unmarked ⟨late, found⟩⟩
      obtain ⟨round, rfl⟩ := Nat.exists_eq_add_of_le marked.1.le
      exact Or.inr ⟨lrcuListCheckLoopDepth, Nat.le_refl _, round, by omega, e, marked.2, visits⟩
  · rintro (⟨steps, _, e, visits, again⟩ | ⟨steps, early, round, at_⟩)
    · refine ⟨steps, fun ⟨e', visits', notSelf, _⟩ => notSelf ?_⟩
      obtain rfl := Option.some.inj (visits.symm.trans visits')
      exact (pointerWalk_next visits).symm.trans again
    · obtain ⟨positive, e, marked, again⟩ := at_.later early
      refine ⟨lrcuListCheckLoopDepth + round, fun ⟨e', visits', _, unmarked⟩ => ?_⟩
      obtain rfl := Option.some.inj (again.symm.trans visits')
      exact unmarked (by omega) marked

private theorem loopCheckOutcome_fails (cycles : WalkCycles next head)
    (stops : ∃ steps, ¬ IterationPasses next head steps) :
    ∃ fuel, loopCheckOutcome next head fuel = .fails := by
  classical
  let steps := Nat.find stops
  have passes : ∀ earlier < steps, IterationPasses next head earlier :=
    fun earlier inside => not_not.mp (Nat.find_min stops inside)
  have goesOn : pointerWalk next head steps ≠ none :=
    fun ended => not_walkEnds_of_walkCycles cycles ⟨steps, ended⟩
  obtain ⟨e, visits⟩ := Option.ne_none_iff_exists'.mp goesOn
  refine ⟨1 + steps, ?_⟩
  rw [loopCheckOutcome_add passes, visits, lrcuListCheckLoopWithin, if_pos]
  by_contra fine
  refine Nat.find_spec stops ⟨e, visits, fun same => fine (Or.inl same), fun late marked => ?_⟩
  exact fine (Or.inr ((if_pos late).trans marked))

/-- On a list with a cycle the check runs on until an assertion of the loop
fails. -/
theorem loopCheckOutcome_of_walkCycles (cycles : WalkCycles next head) (fuel : Nat) :
    loopCheckOutcome next head fuel ≠ .passes ∧
      (loopCheckOutcome next head fuel = .fails →
        (∃ steps, CyclesAt next head steps 1) ∨
          ∃ steps ≤ lrcuListCheckLoopDepth, ∃ round, CyclesAt next head steps round) := by
  classical
  rw [← not_iterationPasses_iff cycles]
  by_cases stops : ∃ earlier < fuel, ¬ IterationPasses next head earlier
  · obtain ⟨steps, _, stop⟩ := stops
    refine ⟨fun passed => ?_, fun _ => ⟨steps, stop⟩⟩
    obtain ⟨fuel', failed⟩ := loopCheckOutcome_fails cycles ⟨steps, stop⟩
    have same : loopCheckOutcome next head fuel = loopCheckOutcome next head fuel' :=
      loopCheckOutcome_unique (by simp [passed]) (by simp [failed])
    simp [passed, failed] at same
  · have passes : ∀ earlier < fuel, IterationPasses next head earlier := by
      intro steps inside
      by_contra stop
      exact stops ⟨steps, inside, stop⟩
    have runsOn : loopCheckOutcome next head fuel = .runsOn := by
      have added := loopCheckOutcome_add passes 0
      rwa [Nat.zero_add] at added
    exact ⟨by simp [runsOn], by simp [runsOn]⟩

/-- The check ends, fails on every list with a cycle, and passes every list
without one. -/
def LoopCheckRight (next : Addr → Option Addr) (head : Option Addr) : Prop :=
  (∃ fuel, loopCheckOutcome next head fuel ≠ .runsOn) ∧
    (WalkCycles next head → ∃ fuel, loopCheckOutcome next head fuel = .fails) ∧
    (WalkEnds next head → ∃ fuel, loopCheckOutcome next head fuel = .passes)

theorem loopCheckRight_iff [Finite Addr] (next : Addr → Option Addr) (head : Option Addr) :
    LoopCheckRight next head ↔
      (∃ steps < lrcuListCheckLoopDepth, pointerWalk next head steps = none) ∨
        (∃ steps, CyclesAt next head steps 1) ∨
          ∃ steps ≤ lrcuListCheckLoopDepth, ∃ round, CyclesAt next head steps round := by
  rcases walkEnds_or_walkCycles next head with ends | cycles
  · have noCycle : ¬ WalkCycles next head := fun cycles => not_walkEnds_of_walkCycles cycles ends
    obtain ⟨fuel, outcome⟩ := loopCheckOutcome_of_walkEnds ends
    constructor
    · rintro ⟨_, _, passes⟩
      by_contra long
      obtain ⟨fuel', passed⟩ := passes ends
      rw [if_neg fun short => long (Or.inl short)] at outcome
      have same : loopCheckOutcome next head fuel = loopCheckOutcome next head fuel' :=
        loopCheckOutcome_unique (by simp [outcome]) (by simp [passed])
      simp [outcome, passed] at same
    · rintro (short | ⟨steps, cycles⟩ | ⟨steps, _, round, cycles⟩)
      · rw [if_pos short] at outcome
        exact ⟨⟨fuel, by simp [outcome]⟩, fun cycles => absurd cycles noCycle,
          fun _ => ⟨fuel, outcome⟩⟩
      · exact absurd ⟨steps, 1, cycles⟩ noCycle
      · exact absurd ⟨steps, round, cycles⟩ noCycle
  · have noEnd := not_walkEnds_of_walkCycles cycles
    constructor
    · intro right
      obtain ⟨fuel, failed⟩ := right.2.1 cycles
      exact Or.inr ((loopCheckOutcome_of_walkCycles cycles fuel).2 failed)
    · rintro (⟨steps, _, ended⟩ | stops)
      · exact absurd ⟨steps, ended⟩ noEnd
      · obtain ⟨fuel, failed⟩ :=
          loopCheckOutcome_fails cycles ((not_iterationPasses_iff cycles).mpr stops)
        exact ⟨⟨fuel, by simp [failed]⟩, fun _ => ⟨fuel, failed⟩, fun ends => absurd ends noEnd⟩

/-! ## The operations that end with the check -/

/-- `lrcu_list_splice` with its checks: those of the first list before it is
followed, and those of both lists at the end. -/
def lrcuListSpliceChecked (debug : Bool) (fuel : Nat) (next : Addr → Option Addr)
    (lh lt : Option Addr) : Option ((Addr → Option Addr) × Option Addr × Option Addr) :=
  if lt = none then some (next, lh, lt)
  else if lh ≠ none ∧ lrcuListCheckLoop debug fuel (next, lh) = false then none
  else
    (lrcuListSplice next fuel lh lt).bind fun (next, lh, lt) =>
      if lrcuListCheckLoop debug fuel (next, lh) ∧ lrcuListCheckLoop debug fuel (next, lt) then
        some (next, lh, lt)
      else none

theorem lrcuListChecked_isSome_iff (chain : Chain next head addrs) {fuel : Nat}
    (enough : addrs.length < fuel) :
    (lrcuListChecked true fuel (next, head)).isSome = true ↔
      addrs.length < lrcuListCheckLoopDepth := by
  rw [lrcuListChecked, lrcuListCheckLoop_eq true chain enough]
  simp

theorem lrcuListInsert_checked_iff (chain : Chain next head addrs) {e : Addr} (fresh : e ∉ addrs)
    {fuel : Nat} (enough : addrs.length + 1 < fuel) :
    (lrcuListChecked true fuel (lrcuListInsert next head e)).isSome = true ↔
      addrs.length + 1 < lrcuListCheckLoopDepth := by
  rw [lrcuListInsert_eq]
  exact lrcuListChecked_isSome_iff (chain.cons fresh) enough

theorem lrcuListUnlink_checked_iff {kept rest : List Addr} {n : Addr}
    (chain : Chain next head (kept ++ n :: rest)) {fuel : Nat}
    (enough : (kept ++ n :: rest).length ≤ fuel) :
    (lrcuListUnlink true fuel (next, head) kept.getLast?).isSome = true ↔
      (kept ++ rest).length < lrcuListCheckLoopDepth := by
  obtain ⟨next', head', unlinked, left, _⟩ := lrcuListUnlinkNext_kept chain
  have shorter : (kept ++ rest).length < fuel := by
    simp only [List.length_append, List.length_cons] at enough ⊢
    omega
  rw [lrcuListUnlink, unlinked, Option.bind_some]
  exact lrcuListChecked_isSome_iff left shorter

theorem lrcuListSplice_checked_iff {lh lt : Option Addr} {others : List Addr}
    (chain : Chain next lh addrs) (other : Chain next lt others)
    (distinct : (addrs ++ others).Nodup) {fuel : Nat}
    (enough : (addrs ++ others).length < fuel) :
    (lrcuListSpliceChecked true fuel next lh lt).isSome = true ↔
      others = [] ∨ (addrs ++ others).length < lrcuListCheckLoopDepth := by
  have shorter : addrs.length ≤ (addrs ++ others).length := by simp
  obtain ⟨next', lh', spliced, joined, _⟩ :=
    lrcuListSplice_spec chain other distinct (shorter.trans_lt enough)
  have first := lrcuListCheckLoop_eq true chain (shorter.trans_lt enough)
  have both := lrcuListCheckLoop_eq true joined enough
  have emptied := lrcuListCheckLoop_eq true (chain_none.mpr rfl : Chain next' none [])
    (Nat.zero_lt_of_lt enough)
  have room : 0 < lrcuListCheckLoopDepth := by decide
  simp only [Bool.not_true, Bool.false_or] at first both emptied
  rw [lrcuListSpliceChecked, first, spliced, Option.bind_some]
  cases others with
  | nil =>
      obtain rfl : lt = none := other
      simp
  | cons e rest =>
      obtain ⟨rfl, _⟩ := other
      simp only [reduceCtorEq, false_or, if_false, both, emptied, decide_eq_false_iff_not,
        decide_eq_true_eq, List.length_nil, room, and_true]
      by_cases fits : (addrs ++ e :: rest).length < lrcuListCheckLoopDepth
      · have firstFits : addrs.length < lrcuListCheckLoopDepth := shorter.trans_lt fits
        simp [firstFits]
      · have tooLong := not_lt.mp fits
        split_ifs <;> simpa using tooLong

/-- The loop checker is right about a list exactly when it is a short one
without cycles, or runs into a node that points to itself, or into a cycle that
is entered early; and the operations on lists without cycles abort exactly when
they leave one that is too long. -/
theorem lrcuListCheckLoop_right_iff [Finite Addr] (next : Addr → Option Addr)
    (head : Option Addr) :
    (LoopCheckRight next head ↔
      (∃ steps < lrcuListCheckLoopDepth, pointerWalk next head steps = none) ∨
        (∃ steps, CyclesAt next head steps 1) ∨
          ∃ steps ≤ lrcuListCheckLoopDepth, ∃ round, CyclesAt next head steps round) ∧
      (∀ addrs e fuel, Chain next head addrs → e ∉ addrs → addrs.length + 1 < fuel →
        ((lrcuListChecked true fuel (lrcuListInsert next head e)).isSome = true ↔
          addrs.length + 1 < lrcuListCheckLoopDepth)) ∧
      (∀ kept n rest fuel, Chain next head (kept ++ n :: rest) →
        (kept ++ n :: rest).length ≤ fuel →
        ((lrcuListUnlink true fuel (next, head) kept.getLast?).isSome = true ↔
          (kept ++ rest).length < lrcuListCheckLoopDepth)) ∧
      ∀ lt addrs others fuel, Chain next head addrs → Chain next lt others →
        (addrs ++ others).Nodup → (addrs ++ others).length < fuel →
        ((lrcuListSpliceChecked true fuel next head lt).isSome = true ↔
          others = [] ∨ (addrs ++ others).length < lrcuListCheckLoopDepth) := by
  refine ⟨loopCheckRight_iff next head, ?_, ?_, ?_⟩
  · intro addrs e fuel chain fresh enough
    exact lrcuListInsert_checked_iff chain fresh enough
  · intro kept n rest fuel chain enough
    exact lrcuListUnlink_checked_iff chain enough
  · intro lt addrs others fuel chain other distinct enough
    exact lrcuListSplice_checked_iff chain other distinct enough

/-- Nodes in a row, each pointing to the next and the last one back. -/
def nodesInRow (count : Nat) (back : Option (Fin count)) (node : Fin count) :
    Option (Fin count) :=
  if more : node.val + 1 < count then some ⟨node.val + 1, more⟩ else back

/-- Two nodes that point to each other. -/
theorem lrcuListCheckLoop_right_iff_ring :
    LoopCheckRight (nodesInRow 2 (some 0)) (some 0) :=
  (lrcuListCheckLoop_right_iff (nodesInRow 2 (some 0)) (some 0)).1.mpr
    (Or.inr (Or.inr ⟨0, Nat.zero_le _, 2, by decide, 0, rfl, rfl⟩))

private theorem pointerWalk_nodesInRow {count : Nat} (back : Option (Fin count))
    (start : 0 < count) : ∀ steps (inside : steps < count),
      pointerWalk (nodesInRow count back) (some ⟨0, start⟩) steps = some ⟨steps, inside⟩ := by
  intro steps
  induction steps with
  | zero => exact fun _ => rfl
  | succ steps ih =>
      intro inside
      rw [pointerWalk_next (ih ((Nat.lt_succ_self steps).trans inside)), nodesInRow, dif_pos inside]

private theorem not_right_longRow (start : 0 < lrcuListCheckLoopDepth) :
    ¬ LoopCheckRight (nodesInRow lrcuListCheckLoopDepth none) (some ⟨0, start⟩) := by
  have visits := pointerWalk_nodesInRow (none : Option (Fin lrcuListCheckLoopDepth)) start
  have ended : WalkEnds (nodesInRow lrcuListCheckLoopDepth none) (some ⟨0, start⟩) := by
    refine ⟨lrcuListCheckLoopDepth - 1 + 1, ?_⟩
    have last : lrcuListCheckLoopDepth - 1 < lrcuListCheckLoopDepth := by omega
    rw [pointerWalk_next (visits (lrcuListCheckLoopDepth - 1) last), nodesInRow,
      dif_neg (show ¬ lrcuListCheckLoopDepth - 1 + 1 < lrcuListCheckLoopDepth by omega)]
  rw [loopCheckRight_iff]
  rintro (⟨steps, inside, done⟩ | ⟨steps, cycles⟩ | ⟨steps, _, round, cycles⟩)
  · exact absurd ((visits steps inside).symm.trans done) (by simp)
  · exact not_walkEnds_of_walkCycles ⟨steps, 1, cycles⟩ ended
  · exact not_walkEnds_of_walkCycles ⟨steps, round, cycles⟩ ended

/-- A walk in a row that leads back behind a node never comes back to that node
or one before it. -/
private theorem pointerWalk_behind {count steps : Nat} {back node : Fin count}
    {head : Option (Fin count)} (behind : steps < back.val)
    (visits : pointerWalk (nodesInRow count (some back)) head steps = some node)
    (position : node.val = steps) (more : Nat) :
    ∃ node', pointerWalk (nodesInRow count (some back)) head (steps + (more + 1)) = some node' ∧
      steps < node'.val := by
  have moves : ∀ node : Fin count, steps ≤ node.val →
      ∃ node', nodesInRow count (some back) node = some node' ∧ steps < node'.val := by
    intro node reached
    rw [nodesInRow]
    split_ifs with inside
    · exact ⟨_, rfl, Nat.lt_succ_of_le reached⟩
    · exact ⟨back, rfl, behind⟩
  induction more with
  | zero =>
      obtain ⟨node', moved, later⟩ := moves node position.ge
      exact ⟨node', (pointerWalk_next visits).trans moved, later⟩
  | succ more ih =>
      obtain ⟨last, visited, later⟩ := ih
      obtain ⟨node', moved, later'⟩ := moves last later.le
      exact ⟨node', (pointerWalk_next visited).trans moved, later'⟩

/-- Two nodes that point to each other, behind one node too many. -/
private theorem runsOn_lateRing {depth : Nat} (depthEq : depth = lrcuListCheckLoopDepth)
    (back : Fin (depth + 3)) (late : back.val = depth + 1) (fuel : Nat) :
    loopCheckOutcome (nodesInRow (depth + 3) (some back)) (some ⟨0, Nat.succ_pos _⟩) fuel =
      .runsOn := by
  have visits := pointerWalk_nodesInRow (some back) (Nat.succ_pos (depth + 2))
  have cycles : WalkCycles (nodesInRow (depth + 3) (some back)) (some ⟨0, Nat.succ_pos _⟩) := by
    refine ⟨depth + 1, 2, by decide, ⟨depth + 1, by omega⟩, visits (depth + 1) (by omega), ?_⟩
    change pointerWalk _ _ (depth + 2 + 1) = _
    rw [pointerWalk_next (visits (depth + 2) (by omega)), nodesInRow,
      dif_neg (Nat.lt_irrefl (depth + 3))]
    exact congrArg some (Fin.ext late)
  have verdict := loopCheckOutcome_of_walkCycles cycles fuel
  cases outcome : loopCheckOutcome (nodesInRow (depth + 3) (some back))
      (some ⟨0, Nat.succ_pos _⟩) fuel with
  | passes => exact absurd outcome verdict.1
  | runsOn => rfl
  | fails =>
      exfalso
      rcases verdict.2 outcome with ⟨steps, _, node, first, again⟩ | ⟨steps, early, round, at_⟩
      · -- no node points to itself
        have self := (pointerWalk_next first).symm.trans again
        rw [nodesInRow] at self
        split_ifs at self with more
        · exact absurd (congrArg Fin.val (Option.some.inj self)) (by simp)
        · have same := congrArg Fin.val (Option.some.inj self)
          omega
      · obtain ⟨positive, node, first, again⟩ := at_
        have start := visits steps (by omega)
        obtain rfl := Option.some.inj (start.symm.trans first)
        obtain ⟨more, rfl⟩ := Nat.exists_eq_succ_of_ne_zero positive.ne'
        obtain ⟨node, visited, behind⟩ := pointerWalk_behind (by omega) start rfl more
        obtain rfl := Option.some.inj (visited.symm.trans again)
        exact absurd behind (Nat.lt_irrefl steps)

/-- The check fails a list without cycles, and it never ends on a list that
enters a ring of two nodes behind `100001` others. -/
theorem not_lrcuListCheckLoop_right :
    ¬ LoopCheckRight (nodesInRow lrcuListCheckLoopDepth none) (some ⟨0, by decide⟩) ∧
      ¬ LoopCheckRight (nodesInRow (lrcuListCheckLoopDepth + 3)
        (some ⟨lrcuListCheckLoopDepth + 1, by decide⟩)) (some ⟨0, by decide⟩) := by
  refine ⟨not_right_longRow _, fun right => ?_⟩
  obtain ⟨fuel, ended⟩ := right.1
  exact ended (runsOn_lateRing rfl _ rfl fuel)

end LightRcu
