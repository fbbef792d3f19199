import LightRcu.ListLoops

/-!
# Unlinking during an iteration

A loop over a list may unlink and free the element it is at.  It still visits
every element of the list once and in order, and leaves the list without those
it unlinked.  The search of `lrcu_list_find_ptr_unlink` is such a loop that
stops at its first match.
-/

namespace LightRcu

variable {Addr : Type*} [DecidableEq Addr]

/-! ## Unlinking the current element -/

/-- `lrcu_list_unlink_next` with the check that it ends with. -/
def lrcuListUnlink (debug : Bool) (fuel : Nat) (list : (Addr → Option Addr) × Option Addr)
    (e : Option Addr) : Option ((Addr → Option Addr) × Option Addr) :=
  (lrcuListUnlinkNext list.1 list.2 e).bind (lrcuListChecked debug fuel)

variable {next : Addr → Option Addr} {head : Option Addr} {addrs kept rest : List Addr}
  {n : Addr}

theorem eraseIdx_length_append {α : Type*} (kept : List α) (n : α) (rest : List α) :
    (kept ++ n :: rest).eraseIdx kept.length = kept ++ rest := by
  rw [List.eraseIdx_append_of_length_le (Nat.le_refl _), Nat.sub_self, List.eraseIdx_cons_zero]

theorem lrcuListUnlinkNext_kept (chain : Chain next head (kept ++ n :: rest)) :
    ∃ next' head', lrcuListUnlinkNext next head kept.getLast? = some (next', head') ∧
      Chain next' head' (kept ++ rest) ∧
        ∀ addr, addr ∉ kept ++ n :: rest → next' addr = next addr := by
  have visits : VisitsAt (kept ++ n :: rest) kept.length n kept.getLast? :=
    ⟨by simp, (previousAt_append kept (n :: rest)).symm⟩
  obtain ⟨next', head', unlinked, left, frame, _⟩ :=
    lrcuListUnlinkNext_spec chain chain.nodup visits
  rw [eraseIdx_length_append] at left
  exact ⟨next', head', unlinked, left, frame⟩

/-- The check passes, or it is on and the list is too long. -/
theorem lrcuListChecked_cases (debug : Bool) {fuel : Nat} (chain : Chain next head addrs)
    (enough : addrs.length < fuel) :
    lrcuListChecked debug fuel (next, head) = some (next, head) ∧
        (debug = true → addrs.length < lrcuListCheckLoopDepth) ∨
      lrcuListChecked debug fuel (next, head) = none ∧ debug = true ∧
        lrcuListCheckLoopDepth ≤ addrs.length := by
  rw [lrcuListChecked, lrcuListCheckLoop_eq debug chain enough]
  split
  · next passes =>
      refine Or.inl ⟨rfl, fun checked => ?_⟩
      simpa [checked] using passes
  · next unchecked =>
      simp only [Bool.or_eq_true, Bool.not_eq_true', decide_eq_true_eq, not_or,
        Bool.not_eq_false, not_lt] at unchecked
      exact Or.inr ⟨rfl, unchecked⟩

theorem lrcuListUnlink_cases (debug : Bool) {fuel : Nat}
    (chain : Chain next head (kept ++ n :: rest))
    (enough : (kept ++ n :: rest).length ≤ fuel) :
    (∃ next' head', lrcuListUnlink debug fuel (next, head) kept.getLast? = some (next', head') ∧
      Chain next' head' (kept ++ rest) ∧
        ∀ addr, addr ∉ kept ++ n :: rest → next' addr = next addr) ∨
      lrcuListUnlink debug fuel (next, head) kept.getLast? = none ∧ debug = true ∧
        lrcuListCheckLoopDepth ≤ (kept ++ rest).length := by
  obtain ⟨next', head', unlinked, left, frame⟩ := lrcuListUnlinkNext_kept chain
  have shorter : (kept ++ rest).length < fuel := by
    simp only [List.length_append, List.length_cons] at enough ⊢
    omega
  simp only [lrcuListUnlink, unlinked, Option.bind_some]
  rcases lrcuListChecked_cases debug left shorter with ⟨passes, _⟩ | fails
  · exact Or.inl ⟨next', head', passes, left, frame⟩
  · exact Or.inr fails

theorem lrcuListUnlink_spec (debug : Bool) {fuel : Nat}
    (chain : Chain next head (kept ++ n :: rest))
    (enough : (kept ++ n :: rest).length ≤ fuel)
    (short : debug = true → (kept ++ n :: rest).length ≤ lrcuListCheckLoopDepth) :
    ∃ next' head', lrcuListUnlink debug fuel (next, head) kept.getLast? = some (next', head') ∧
      Chain next' head' (kept ++ rest) ∧
        ∀ addr, addr ∉ kept ++ n :: rest → next' addr = next addr := by
  rcases lrcuListUnlink_cases debug chain enough with unlinks | ⟨_, checked, long⟩
  · exact unlinks
  · have bounded := short checked
    simp only [List.length_append, List.length_cons] at bounded long
    omega

/-! ## A body that unlinks and frees -/

/-- A list in memory and the elements that a loop over it has visited. -/
structure UnlinkingState (Addr : Type*) where
  next : Addr → Option Addr
  head : Option Addr
  visited : List Addr

def UnlinkingState.list (state : UnlinkingState Addr) : (Addr → Option Addr) × Option Addr :=
  (state.next, state.head)

/-- The body removes the elements that it is told to.  Whoever gets the memory
of a freed element may store anything there. -/
def unlinkingBody (debug : Bool) (fuel : Nat) (remove : Addr → Bool)
    (freed : Addr → Option Addr) (state : UnlinkingState Addr) (n : Addr)
    (nPrev : Option Addr) : Option (BodyOutcome (UnlinkingState Addr) Empty) :=
  if remove n then
    (lrcuListUnlink debug fuel state.list nPrev).map fun list =>
      .proceed
        { next := Function.update list.1 n (freed n)
          head := list.2
          visited := state.visited ++ [n] }
  else
    some (.proceed { state with visited := state.visited ++ [n] })

/-- The elements visited so far, those of them kept, and those still to come. -/
structure UnlinkingOk (remove : Addr → Bool) (next : Addr → Option Addr) (addrs : List Addr)
    (kept rest : List Addr) (state : UnlinkingState Addr) : Prop where
  chain : Chain state.next state.head (kept ++ rest)
  visited : state.visited ++ rest = addrs
  kept : kept = state.visited.filter fun n => !remove n
  frame : ∀ addr, addr ∉ addrs → state.next addr = next addr

private theorem unlinkingBody_meets {debug : Bool} {fuel : Nat} (remove : Addr → Bool)
    (freed : Addr → Option Addr) (enough : addrs.length < fuel)
    (short : debug = true → addrs.length < lrcuListCheckLoopDepth)
    {state : UnlinkingState Addr}
    (ok : UnlinkingOk remove next addrs kept (n :: rest) state) :
    BodyMeets (UnlinkingOk remove next addrs) (fun _ => False) False kept n rest
      (unlinkingBody debug fuel remove freed state n kept.getLast?) := by
  have visited : (state.visited ++ [n]) ++ rest = addrs := by
    rw [List.append_assoc, List.singleton_append, ok.visited]
  have inside : ∀ addr ∈ kept ++ n :: rest, addr ∈ addrs := by
    intro addr member
    rw [← ok.visited]
    rcases List.mem_append.mp member with earlier | later
    · rw [ok.kept] at earlier
      exact List.mem_append_left _ (List.mem_of_mem_filter earlier)
    · exact List.mem_append_right _ later
  have bounded : (kept ++ n :: rest).length ≤ addrs.length := by
    rw [← ok.visited, ok.kept, List.length_append, List.length_append]
    exact Nat.add_le_add_right (List.length_filter_le _ _) _
  unfold unlinkingBody
  cases removed : remove n with
  | true =>
      have room : (kept ++ n :: rest).length ≤ fuel := by omega
      obtain ⟨next', head', unlinked, left, frame⟩ :=
        lrcuListUnlink_spec debug ok.chain room fun checked => bounded.trans (short checked).le
      rw [if_pos rfl, UnlinkingState.list, unlinked]
      refine .unlinks ⟨left.update ok.chain.absent _, visited, ?_, fun addr outside => ?_⟩
        ok.chain.absent
      · simp [ok.kept, removed]
      · have other : addr ≠ n := by
          rintro rfl
          exact outside (inside addr (by simp))
        exact (Function.update_of_ne other _ _).trans
          ((frame addr fun member => outside (inside addr member)).trans (ok.frame addr outside))
  | false =>
      refine .keeps ⟨by simpa using ok.chain, visited, ?_, ok.frame⟩
      simp [ok.kept, removed]

/-! ## The search for a data pointer -/

variable {Ptr : Type*} [DecidableEq Ptr]

/-- The body of `__lrcu_list_find_ptr_unlink`. -/
def findPtrBody (debug : Bool) (fuel : Nat) (data : Addr → Ptr) (p : Ptr) (unlink : Bool)
    (list : (Addr → Option Addr) × Option Addr) (n : Addr) (nPrev : Option Addr) :
    Option (BodyOutcome ((Addr → Option Addr) × Option Addr)
      (Addr × (Addr → Option Addr) × Option Addr)) :=
  if data n = p then
    if unlink then
      (lrcuListUnlink debug fuel list nPrev).map fun list => .leave (n, list)
    else
      some (.leave (n, list))
  else
    some (.proceed list)

/-- The node that is returned and the list afterwards. -/
def lrcuListFindPtrUnlink (debug : Bool) (fuel : Nat) (data : Addr → Ptr) (p : Ptr)
    (unlink : Bool) (list : (Addr → Option Addr) × Option Addr) :
    Option (Option Addr × (Addr → Option Addr) × Option Addr) :=
  (lrcuListForEach debug id (findPtrBody debug fuel data p unlink) fuel list).map fun
    | .proceed list => (none, list)
    | .leave (n, list) => (some n, list)

/-- The search has passed elements that do not match, and changed nothing. -/
structure SearchOk (data : Addr → Ptr) (p : Ptr) (next : Addr → Option Addr)
    (head : Option Addr) (addrs kept rest : List Addr)
    (list : (Addr → Option Addr) × Option Addr) : Prop where
  unchanged : list = (next, head)
  passed : addrs = kept ++ rest
  differ : ∀ n ∈ kept, data n ≠ p

/-- The search has unlinked its first match. -/
def FoundPtr (data : Addr → Ptr) (p : Ptr) (next : Addr → Option Addr) (addrs : List Addr)
    (found : Addr × (Addr → Option Addr) × Option Addr) : Prop :=
  ∃ kept rest, addrs = kept ++ found.1 :: rest ∧ data found.1 = p ∧
    (∀ n ∈ kept, data n ≠ p) ∧ Chain found.2.1 found.2.2 (kept ++ rest) ∧
      ∀ addr, addr ∉ addrs → found.2.1 addr = next addr

private theorem findPtrBody_meets {debug : Bool} {fuel : Nat} (data : Addr → Ptr) (p : Ptr)
    (chain : Chain next head addrs) (enough : addrs.length < fuel)
    (short : debug = true → addrs.length < lrcuListCheckLoopDepth)
    {list : (Addr → Option Addr) × Option Addr}
    (ok : SearchOk data p next head addrs kept (n :: rest) list) :
    BodyMeets (SearchOk data p next head addrs) (FoundPtr data p next addrs) False kept n rest
      (findPtrBody debug fuel data p true list n kept.getLast?) := by
  obtain ⟨rfl, rfl, differ⟩ := ok
  unfold findPtrBody
  by_cases matched : data n = p
  · obtain ⟨next', head', unlinked, left, frame⟩ :=
      lrcuListUnlink_spec debug chain enough.le fun checked => (short checked).le
    rw [if_pos matched, if_pos rfl, unlinked]
    exact .leaves ⟨kept, rest, rfl, matched, differ, left, frame⟩
  · rw [if_neg matched]
    refine .keeps ⟨rfl, by simp, fun other member => ?_⟩
    rcases List.mem_append.mp member with earlier | last
    · exact differ other earlier
    · exact List.mem_singleton.mp last ▸ matched

theorem lrcuListFindPtrUnlink_spec {debug : Bool} {fuel : Nat} (data : Addr → Ptr) (p : Ptr)
    (chain : Chain next head addrs) (enough : addrs.length < fuel)
    (short : debug = true → addrs.length < lrcuListCheckLoopDepth) :
    ∃ next' head', lrcuListFindPtrUnlink debug fuel data p true (next, head) =
        some (addrs.find? fun n => data n = p, next', head') ∧
      Chain next' head' (addrs.eraseP fun n => data n = p) ∧
      (∀ addr, addr ∉ addrs → next' addr = next addr) ∧
      ((∀ n ∈ addrs, data n ≠ p) → next' = next ∧ head' = head) := by
  have met : LoopMeets (SearchOk data p next head addrs) (FoundPtr data p next addrs) False
      (lrcuListForEach debug id (findPtrBody debug fuel data p true) fuel (next, head)) := by
    refine lrcuListForEach_rule (SearchOk data p next head addrs) _ _ ?_ ?_ enough ?_ ?_
    · rintro kept rest list ⟨rfl, rfl, _⟩
      exact chain
    · intro kept n rest list ok
      exact findPtrBody_meets data p chain enough short ok
    · exact fun checked long => absurd (short checked) (not_lt.mpr long)
    · exact ⟨rfl, rfl, by simp⟩
  unfold lrcuListFindPtrUnlink
  generalize lrcuListForEach debug id (findPtrBody debug fuel data p true) fuel (next, head) =
    result at met
  cases met with
  | ends ok =>
      obtain ⟨rfl, passed, differ⟩ := ok
      rw [List.append_nil] at passed
      subst passed
      have none : addrs.find? (fun n => data n = p) = none := by
        simpa [List.find?_eq_none] using differ
      have same : addrs.eraseP (fun n => data n = p) = addrs :=
        List.eraseP_of_forall_not (by simpa using differ)
      exact ⟨next, head, by simp [none], same.symm ▸ chain, fun _ _ => rfl, fun _ => ⟨rfl, rfl⟩⟩
  | @leaves value found =>
      obtain ⟨kept, rest, passed, matched, differ, left, frame⟩ := found
      have others : ∀ n ∈ kept, ¬ decide (data n = p) = true := by simpa using differ
      have first : addrs.find? (fun n => data n = p) = some value.1 := by
        rw [passed, List.find?_append, List.find?_eq_none.mpr others, Option.none_or,
          List.find?_cons_of_pos (by simpa using matched)]
      have erased : addrs.eraseP (fun n => data n = p) = kept ++ rest := by
        rw [passed, List.eraseP_append_right _ (by simpa using differ),
          List.eraseP_cons_of_pos (by simpa using matched)]
      refine ⟨value.2.1, value.2.2, by rw [first]; rfl, erased.symm ▸ left, frame, fun none => ?_⟩
      exact absurd matched (none value.1 (passed ▸ by simp))
  | fails failed => exact failed.elim

/-! ## Both loops -/

/-- A loop that unlinks and frees any of the elements visits all of them in
order. -/
theorem lrcuListForEach_unlinking_spec {debug : Bool} {fuel : Nat} (remove : Addr → Bool)
    (freed : Addr → Option Addr) (chain : Chain next head addrs) (enough : addrs.length < fuel)
    (short : debug = true → addrs.length < lrcuListCheckLoopDepth) :
    ∃ final,
      lrcuListForEach debug UnlinkingState.list (unlinkingBody debug fuel remove freed) fuel
          ⟨next, head, []⟩ = some (.proceed final) ∧
        final.visited = addrs ∧
        Chain final.next final.head (addrs.filter fun n => !remove n) ∧
        ∀ addr, addr ∉ addrs → final.next addr = next addr := by
  have met : LoopMeets (UnlinkingOk remove next addrs) (fun _ => False) False
      (lrcuListForEach debug UnlinkingState.list (unlinkingBody debug fuel remove freed) fuel
        ⟨next, head, []⟩) := by
    apply lrcuListForEach_rule (UnlinkingOk remove next addrs) _ _ _ _ enough
    · exact fun checked long => absurd (short checked) (not_lt.mpr long)
    · exact ⟨chain, rfl, rfl, fun _ _ => rfl⟩
    · exact fun kept rest state ok => ok.chain
    · intro kept n rest state ok
      exact unlinkingBody_meets remove freed enough short ok
  generalize lrcuListForEach debug UnlinkingState.list
    (unlinkingBody debug fuel remove freed) fuel ⟨next, head, []⟩ = result at met
  cases met with
  | @ends kept final ok =>
      have visited : final.visited = addrs := by simpa using ok.visited
      refine ⟨final, rfl, visited, ?_, ok.frame⟩
      have left := ok.chain
      rwa [List.append_nil, ok.kept, visited] at left
  | leaves impossible => exact impossible.elim
  | fails failed => exact failed.elim

/-- A loop that unlinks and frees any of the elements visits all of them in
order and leaves the others; the search takes out its first match. -/
theorem lrcuListForEach_unlinks {debug : Bool} {fuel : Nat} (chain : Chain next head addrs)
    (enough : addrs.length < fuel)
    (short : debug = true → addrs.length < lrcuListCheckLoopDepth) :
    (∀ remove freed, ∃ final,
      lrcuListForEach debug UnlinkingState.list (unlinkingBody debug fuel remove freed) fuel
          ⟨next, head, []⟩ = some (.proceed final) ∧
        final.visited = addrs ∧
        Chain final.next final.head (addrs.filter fun n => !remove n) ∧
        ∀ addr, addr ∉ addrs → final.next addr = next addr) ∧
    ∀ (data : Addr → Ptr) p, ∃ next' head',
      lrcuListFindPtrUnlink debug fuel data p true (next, head) =
          some (addrs.find? fun n => data n = p, next', head') ∧
        Chain next' head' (addrs.eraseP fun n => data n = p) ∧
        (∀ addr, addr ∉ addrs → next' addr = next addr) ∧
        ((∀ n ∈ addrs, data n ≠ p) → next' = next ∧ head' = head) := by
  constructor
  · exact fun remove freed => lrcuListForEach_unlinking_spec remove freed chain enough short
  · exact fun data p => lrcuListFindPtrUnlink_spec data p chain enough short

/-- Five elements, of which the head and two in a row are unlinked. -/
def fiveElements : Nat → Option Nat
  | 1 => some 2
  | 2 => some 3
  | 3 => some 4
  | 4 => some 5
  | _ => none

theorem lrcuListForEach_unlinks_five :
    ∃ final, lrcuListForEach true UnlinkingState.list
        (unlinkingBody true 6 (fun n => n = 1 ∨ n = 3 ∨ n = 4) fun _ => some 7) 6
          ⟨fiveElements, some 1, []⟩ = some (.proceed final) ∧
      final.visited = [1, 2, 3, 4, 5] ∧ Chain final.next final.head [2, 5] := by
  have chain : Chain fiveElements (some 1) [1, 2, 3, 4, 5] := by simp [Chain, fiveElements]
  obtain ⟨unlinks, _⟩ := @lrcuListForEach_unlinks Nat _ _ _ _ Nat _ true 6 chain (by decide)
    fun _ => by decide
  obtain ⟨final, ran, visited, left, _⟩ :=
    unlinks (fun n => n = 1 ∨ n = 3 ∨ n = 4) fun _ => some 7
  exact ⟨final, ran, visited, left⟩

end LightRcu
