import LightRcu.CallbackListLinks

/-!
# Loops over a list that is being unlinked

The macro `lrcu_list_for_each` as a loop over any body that may unlink the
element it is handed, with the rule that its uses share: the elements kept so
far, followed by those still to come, are always the list in memory.  Two uses
follow here, a body that unlinks and frees what it is told to, and the search
for a data pointer.
-/

namespace LightRcu

variable {Addr : Type*} [DecidableEq Addr]

/-! ## The debug check -/

/-- `__lrcu_list_check_loop_depth`. -/
def lrcuListCheckLoopDepth : Nat := 100000

/-- The `while(e)` loop of `lrcu_list_check_loop`: the count that it ends with,
or `none` when one of its assertions fails. -/
def lrcuListCheckLoopFrom (next : Addr → Option Addr) :
    Nat → Option Addr → Nat → Option Addr → Option Nat
  | 0, _, _, _ => none
  | _ + 1, none, cnt, _ => some cnt
  | fuel + 1, some e, cnt, t =>
      if next e = some e ∨ t = some e then
        none
      else
        lrcuListCheckLoopFrom next fuel (next e) (cnt + 1)
          (if lrcuListCheckLoopDepth < cnt + 1 ∧ t = none then some e else t)

/-- Whether `lrcu_list_check_loop` lets the list pass.  Without
`LRCU_LIST_DEBUG` it does nothing. -/
def lrcuListCheckLoop (debug : Bool) (fuel : Nat)
    (list : (Addr → Option Addr) × Option Addr) : Bool :=
  if debug then
    match lrcuListCheckLoopFrom list.1 fuel list.2 0 none with
    | some cnt => decide (cnt < lrcuListCheckLoopDepth)
    | none => false
  else true

/-- The check that an operation ends with. -/
def lrcuListChecked (debug : Bool) (fuel : Nat) (list : (Addr → Option Addr) × Option Addr) :
    Option ((Addr → Option Addr) × Option Addr) :=
  if lrcuListCheckLoop debug fuel list then some list else none

variable {next : Addr → Option Addr} {head : Option Addr} {addrs : List Addr}

private theorem checkLoopFrom_spec (chain : Chain next head addrs) {fuel : Nat}
    (enough : addrs.length < fuel) (cnt : Nat) {t : Option Addr}
    (behind : ∀ e, t = some e → e ∉ addrs) :
    lrcuListCheckLoopFrom next fuel head cnt t = some (cnt + addrs.length) := by
  induction addrs generalizing head fuel cnt t with
  | nil =>
      obtain rfl : head = none := chain
      obtain ⟨fuel, rfl⟩ := Nat.exists_eq_succ_of_ne_zero (Nat.ne_of_gt enough)
      rfl
  | cons e rest ih =>
      have fresh := (List.nodup_cons.mp chain.nodup).1
      obtain ⟨rfl, tail⟩ := chain
      obtain ⟨fuel, rfl⟩ := Nat.exists_eq_succ_of_ne_zero (Nat.ne_zero_of_lt enough)
      have notSelf : next e ≠ some e := by
        intro same
        exact fresh (List.mem_of_getElem? ((Chain.head_eq tail).symm.trans same))
      have notMarked : t ≠ some e := fun same => behind e same List.mem_cons_self
      rw [lrcuListCheckLoopFrom, if_neg (not_or.mpr ⟨notSelf, notMarked⟩), ih tail
        (by simpa using enough), List.length_cons]
      · congr 1
        omega
      · intro other marked member
        split_ifs at marked
        · obtain rfl := Option.some.inj marked
          exact fresh member
        · exact behind other marked (List.mem_cons_of_mem _ member)

/-- The check lets a list without cycles pass unless it is too long. -/
theorem lrcuListCheckLoop_eq (debug : Bool) (chain : Chain next head addrs) {fuel : Nat}
    (enough : addrs.length < fuel) :
    lrcuListCheckLoop debug fuel (next, head) =
      (!debug || decide (addrs.length < lrcuListCheckLoopDepth)) := by
  unfold lrcuListCheckLoop
  cases debug with
  | false => rfl
  | true =>
      rw [if_pos rfl, checkLoopFrom_spec chain enough 0 (by simp), Nat.zero_add]
      rfl

/-! ## The loop -/

/-- What the body of a loop does: go on, or return from the function that the
loop is in. -/
inductive BodyOutcome (State Value : Type*)
  | proceed (state : State)
  | leave (value : Value)

variable {State Value : Type*}

/-- The iterations of `__lrcu_list_for_each` over a list in the state.  The body
may fail an assertion. -/
def lrcuListForEachLoop (list : State → (Addr → Option Addr) × Option Addr)
    (body : State → Addr → Option Addr → Option (BodyOutcome State Value)) :
    Nat → State → Option Addr → Option Addr → Option (BodyOutcome State Value)
  | 0, _, _, _ => none
  | fuel + 1, state, n, nPrev =>
      match lrcuListForEachGetN (list state).1 (list state).2 n nPrev with
      | (none, _) => some (.proceed state)
      | (some n, nPrev) =>
          (body state n nPrev).bind fun
            | .proceed state => lrcuListForEachLoop list body fuel state (some n) nPrev
            | .leave value => some (.leave value)

def lrcuListForEach (debug : Bool) (list : State → (Addr → Option Addr) × Option Addr)
    (body : State → Addr → Option Addr → Option (BodyOutcome State Value))
    (fuel : Nat) (state : State) : Option (BodyOutcome State Value) :=
  if lrcuListCheckLoop debug fuel (list state) then
    lrcuListForEachLoop list body fuel state none none
  else none

/-- What a visit leaves behind: the loop goes on behind the element, which is
still there or has been unlinked, or it is left, or an assertion fails. -/
inductive BodyMeets (invariant : List Addr → List Addr → State → Prop) (returns : Value → Prop)
    (fails : Prop) (kept : List Addr) (n : Addr) (rest : List Addr) :
    Option (BodyOutcome State Value) → Prop
  | keeps {state : State} (holds : invariant (kept ++ [n]) rest state) :
      BodyMeets invariant returns fails kept n rest (some (.proceed state))
  | unlinks {state : State} (holds : invariant kept rest state) (absent : n ∉ kept ++ rest) :
      BodyMeets invariant returns fails kept n rest (some (.proceed state))
  | leaves {value : Value} (holds : returns value) :
      BodyMeets invariant returns fails kept n rest (some (.leave value))
  | fails (failed : fails) : BodyMeets invariant returns fails kept n rest none

/-- How a whole loop ends. -/
inductive LoopMeets (invariant : List Addr → List Addr → State → Prop) (returns : Value → Prop)
    (fails : Prop) : Option (BodyOutcome State Value) → Prop
  | ends {kept : List Addr} {state : State} (holds : invariant kept [] state) :
      LoopMeets invariant returns fails (some (.proceed state))
  | leaves {value : Value} (holds : returns value) :
      LoopMeets invariant returns fails (some (.leave value))
  | fails (failed : fails) : LoopMeets invariant returns fails none

omit [DecidableEq Addr] in
theorem previousAt_append (kept rest : List Addr) :
    previousAt (kept ++ rest) kept.length = kept.getLast? := by
  rcases List.eq_nil_or_concat' kept with rfl | ⟨front, last, rfl⟩
  · rfl
  · simp [previousAt]

section Rule

variable {list : State → (Addr → Option Addr) × Option Addr}
  {body : State → Addr → Option Addr → Option (BodyOutcome State Value)}
  {invariant : List Addr → List Addr → State → Prop} {returns : Value → Prop} {fails : Prop}

private theorem forEachLoop_rule
    (chain : ∀ kept rest state, invariant kept rest state →
      Chain (list state).1 (list state).2 (kept ++ rest))
    (visit : ∀ kept n rest state, invariant kept (n :: rest) state →
      BodyMeets invariant returns fails kept n rest (body state n kept.getLast?))
    {rest : List Addr} : ∀ {kept : List Addr} {fuel : Nat} {state : State}
      {n nPrev : Option Addr}, rest.length < fuel →
      AdvancesTo (kept ++ rest) kept.length n nPrev → invariant kept rest state →
      LoopMeets invariant returns fails (lrcuListForEachLoop list body fuel state n nPrev) := by
  induction rest with
  | nil =>
      intro kept fuel state n nPrev enough advances holds
      obtain ⟨fuel, rfl⟩ := Nat.exists_eq_succ_of_ne_zero (Nat.ne_of_gt enough)
      have fetched := lrcuListForEachGetN_spec (chain kept [] state holds) advances
      rw [lrcuListForEachLoop, fetched]
      simpa using LoopMeets.ends holds
  | cons e rest ih =>
      intro kept fuel state n nPrev enough advances holds
      obtain ⟨fuel, rfl⟩ := Nat.exists_eq_succ_of_ne_zero (Nat.ne_zero_of_lt enough)
      have enoughRest : rest.length < fuel := by simpa using enough
      have fetched := lrcuListForEachGetN_spec (chain kept (e :: rest) state holds) advances
      have found : (kept ++ e :: rest)[kept.length]? = some e := by simp
      rw [lrcuListForEachLoop, fetched, found, previousAt_append]
      have met := visit kept e rest state holds
      simp only
      generalize body state e kept.getLast? = outcome at met ⊢
      cases met with
      | keeps holds =>
          refine ih enoughRest (Or.inr ⟨e, rfl, Or.inr ⟨kept.length, by simp, ?_, ?_⟩⟩) holds
          · simp
          · rw [List.append_assoc, previousAt_append]
      | unlinks holds absent =>
          refine ih enoughRest (Or.inr ⟨e, rfl, Or.inl ⟨absent, by simp, ?_⟩⟩) holds
          exact (previousAt_append kept rest).symm
      | leaves holds => exact .leaves holds
      | fails failed => exact .fails failed

/-- The rule of `lrcu_list_for_each`: an invariant over the elements kept and
those still to come that every visit maintains holds when the loop ends. -/
theorem lrcuListForEach_rule (invariant : List Addr → List Addr → State → Prop)
    (returns : Value → Prop) (fails : Prop) {debug : Bool} {fuel : Nat} {state : State}
    (chain : ∀ kept rest state, invariant kept rest state →
      Chain (list state).1 (list state).2 (kept ++ rest))
    (visit : ∀ kept n rest state, invariant kept (n :: rest) state →
      BodyMeets invariant returns fails kept n rest (body state n kept.getLast?))
    (enough : addrs.length < fuel)
    (tooLong : debug = true → lrcuListCheckLoopDepth ≤ addrs.length → fails)
    (holds : invariant [] addrs state) :
    LoopMeets invariant returns fails (lrcuListForEach debug list body fuel state) := by
  rw [lrcuListForEach, lrcuListCheckLoop_eq debug (chain [] addrs state holds) enough]
  split
  · exact forEachLoop_rule chain visit enough (advancesTo_start _) holds
  · next unchecked =>
      simp only [Bool.or_eq_true, Bool.not_eq_true', decide_eq_true_eq, not_or,
        Bool.not_eq_false] at unchecked
      exact .fails (tooLong unchecked.1 (not_lt.mp unchecked.2))

end Rule

end LightRcu
