import LightRcu.ThreadNodes

/-!
# A pass keeps the thread registry

Whatever the visits sample, each loop of `__lrcu_get_synchronized` visits every
node of the list it walks once, and the nodes of both lists together stay the
same.  Two assertions can stop a pass: the debug check of the list that a node
joins, and the one on a range that starts at the reserved version.  On the data
of the threads the loops do what `visitAll` does.
-/

namespace LightRcu

open Execution

variable {Addr Ti : Type*} [DecidableEq Addr]

/-! ## Moving a node -/

omit [DecidableEq Addr] in
theorem update_head_walked (head : PassLoop → Option Addr) (loop : PassLoop)
    (walked other : Option Addr) :
    Function.update (Function.update head loop walked) loop.other other loop = walked := by
  cases loop <;> simp [PassLoop.other, Function.update]

omit [DecidableEq Addr] in
theorem update_head_other (head : PassLoop → Option Addr) (loop : PassLoop)
    (walked other : Option Addr) :
    Function.update (Function.update head loop walked) loop.other other loop.other = other :=
  Function.update_self _ _ _

/-- The node leaves the list that is walked for the front of the other one, where
the debug check may stop it. -/
theorem ThreadNodes.move_cases (debug : Bool) {fuel : Nat} {loop : PassLoop}
    (nodes : ThreadNodes Addr Ti) {kept rest others : List Addr} {e : Addr}
    (chain : Chain nodes.next (nodes.head loop) (kept ++ e :: rest))
    (otherChain : Chain nodes.next (nodes.head loop.other) others)
    (apart : ∀ addr ∈ kept ++ e :: rest, addr ∉ others)
    (enough : (kept ++ e :: rest ++ others).length < fuel) :
    (∃ moved, nodes.move debug fuel loop e kept.getLast? = some moved ∧
      moved.info = nodes.info ∧ Chain moved.next (moved.head loop) (kept ++ rest) ∧
        Chain moved.next (moved.head loop.other) (e :: others) ∧
        (debug = true → (e :: others).length < lrcuListCheckLoopDepth)) ∨
      nodes.move debug fuel loop e kept.getLast? = none ∧ debug = true ∧
        lrcuListCheckLoopDepth ≤ (kept ++ e :: rest ++ others).length := by
  simp only [List.length_append, List.length_cons] at enough ⊢
  unfold ThreadNodes.move
  have room : (kept ++ e :: rest).length ≤ fuel := by
    simp only [List.length_append, List.length_cons]
    omega
  rcases lrcuListUnlink_cases debug chain room with
    ⟨next, walked, unlinked, left, frame⟩ | ⟨failed, checked, long⟩
  · have absent : e ∉ others := apart e (by simp)
    have pushed : Chain (Function.update next e (nodes.head loop.other)) (some e)
        (e :: others) := by
      refine (otherChain.congr fun addr member => ?_).cons absent
      exact frame addr fun inside => apart addr inside member
    have longer : (e :: others).length < fuel := by
      rw [List.length_cons]
      omega
    simp only [unlinked, Option.bind_some, lrcuListInsert_eq]
    rcases lrcuListChecked_cases debug pushed longer with
      ⟨passes, short⟩ | ⟨failed, checked, long⟩
    · let moved : ThreadNodes Addr Ti :=
        { nodes with
          next := Function.update next e (nodes.head loop.other)
          head := Function.update (Function.update nodes.head loop walked) loop.other (some e) }
      refine Or.inl ⟨moved, by rw [passes]; rfl, rfl, ?_, ?_, short⟩
      · simp only [moved, update_head_walked]
        exact left.update chain.absent _
      · simpa only [moved, update_head_other] using pushed
    · refine Or.inr ⟨by rw [failed]; rfl, checked, ?_⟩
      rw [List.length_cons] at long
      omega
  · refine Or.inr ⟨by rw [failed]; rfl, checked, ?_⟩
    rw [List.length_append] at long
    omega

/-! ## The two lists as lists of threads -/

/-- The lists of the threads that some lists of nodes stand for. -/
def threadLists (ti : Addr → Ti) (loop : PassLoop) (walked others : List Addr)
    (info : Ti → LrcuThreadInfo) : ThreadLists Ti :=
  match loop with
  | .threads => { threads := walked.map ti, hungThreads := others.map ti, info := info }
  | .hungThreads => { threads := others.map ti, hungThreads := walked.map ti, info := info }

omit [DecidableEq Addr] in
theorem walked_threadLists (ti : Addr → Ti) (loop : PassLoop) (walked others : List Addr)
    (info : Ti → LrcuThreadInfo) :
    (threadLists ti loop walked others info).walked loop = walked.map ti := by
  cases loop <;> rfl

variable [DecidableEq Ti]

omit [DecidableEq Addr] in
theorem setInfo_threadLists (ti : Addr → Ti) (loop : PassLoop) (walked others : List Addr)
    (info : Ti → LrcuThreadInfo) (thread : Ti) (new : LrcuThreadInfo) :
    (threadLists ti loop walked others info).setInfo thread new =
      threadLists ti loop walked others (Function.update info thread new) := by
  cases loop <;> rfl

omit [DecidableEq Addr] [DecidableEq Ti] in
theorem move_threadLists (ti : Addr → Ti) (loop : PassLoop) (kept rest others : List Addr)
    (e : Addr) (info : Ti → LrcuThreadInfo) :
    (threadLists ti loop (kept ++ e :: rest) others info).move kept.length (ti e) loop =
      threadLists ti loop (kept ++ rest) (e :: others) info := by
  have erased : ((kept ++ e :: rest).map ti).eraseIdx kept.length = (kept ++ rest).map ti := by
    simpa using eraseIdx_length_append (kept.map ti) (ti e) (rest.map ti)
  cases loop <;> simp only [threadLists, ThreadLists.move, erased, List.map_cons]

/-! ## What the visits add -/

/-- No visit samples a thread in a section of the version that
`lrcu_rangetree_remove_overlapping` reserves. -/
def NoneReserved (samples : PassLoop → Nat → Sample) (count : Nat) : Prop :=
  ∀ loop, ∀ visit < count, (samples loop visit).lns.counter ≠ 0 →
    (samples loop visit).lns.version ≠ rangeBintreeEmptyValue

/-- The ranges that some visits add, in their order. -/
def visitRanges (visits : List (NodeVisit Addr)) : List LrcuRange :=
  visits.filterMap NodeVisit.range

omit [DecidableEq Addr] in
theorem run_visitRanges_concat {visits : List (NodeVisit Addr)} {visit : NodeVisit Addr}
    {rbt filled added : LrcuRangetree}
    (fills : run applyRangeOp rbt (addAll (visitRanges visits)) = some filled)
    (adds : addVisitRange filled visit.range = some added) :
    run applyRangeOp rbt (addAll (visitRanges (visits ++ [visit]))) = some added := by
  cases range : visit.range with
  | none =>
      rw [range, addVisitRange, Option.some.injEq] at adds
      simpa [visitRanges, range, ← adds] using fills
  | some new =>
      rw [range] at adds
      have appended : addAll (visitRanges (visits ++ [visit])) =
          addAll (visitRanges visits) ++ [.add new.minv new.maxv] := by
        simp [visitRanges, addAll, range]
      rw [appended]
      exact run_concat_eq_some_iff.mpr ⟨filled, fills, adds⟩

theorem LrcuRangetree.Valid.addVisitRange {rbt added : LrcuRangetree} {range : Option LrcuRange}
    (ok : RangetreeOk rbt) (valid : rbt.Valid)
    (new : ∀ other, range = some other → other.minv ≠ rangeBintreeEmptyValue)
    (adds : addVisitRange rbt range = some added) : added.Valid := by
  cases range with
  | none => exact Option.some.inj adds ▸ valid
  | some range => exact valid.add ok (new range rfl) adds

theorem addVisitRange_completes {rbt : LrcuRangetree} (ok : RangetreeOk rbt) (valid : rbt.Valid)
    (range : Option LrcuRange) : ∃ added, addVisitRange rbt range = some added := by
  cases range with
  | none => exact ⟨rbt, rfl⟩
  | some range => exact lrcuRangetreeAdd_completes ok valid range.minv range.maxv

/-! ## One loop -/

/-- A loop between two visits: the nodes it has kept, those still to come, and
those of the other list. -/
structure NodeWalkOk (ti : Addr → Ti) (loop : PassLoop) (currentVersion : Nat)
    (samples : PassLoop → Nat → Sample) (walked others : List Addr) (info : Ti → LrcuThreadInfo)
    (rbt : LrcuRangetree) (kept rest reached : List Addr) (pass : NodePass Addr Ti) : Prop where
  chain : Chain pass.nodes.next (pass.nodes.head loop) (kept ++ rest)
  otherChain : Chain pass.nodes.next (pass.nodes.head loop.other) reached
  same : (kept ++ rest ++ reached).Perm (walked ++ others)
  visited : pass.visits.map NodeVisit.e ++ rest = walked
  sampled : pass.visits.map NodeVisit.sample = (List.range pass.visits.length).map (samples loop)
  starts : ∀ visit ∈ pass.visits, visit.sample.lns.counter ≠ 0 →
    ∃ maxv, visit.range = some ⟨visit.sample.lns.version, maxv⟩
  fills : run applyRangeOp rbt (addAll (visitRanges pass.visits)) = some pass.rbt
  rangesOk : RangetreeOk pass.rbt
  valid : NoneReserved samples (walked ++ others).length → pass.rbt.Valid
  refines : ∀ later,
    visitAll loop currentVersion (pass.visits.map NodeVisit.sample ++ later)
        ⟨threadLists ti loop walked others info, 0, rbt⟩ =
      visitAll loop currentVersion later
        ⟨threadLists ti loop (kept ++ rest) reached pass.nodes.info, kept.length, pass.rbt⟩

omit [DecidableEq Addr] in
private theorem NodeWalkOk.refines_concat {ti : Addr → Ti} {loop : PassLoop} {currentVersion : Nat}
    {samples : PassLoop → Nat → Sample} {walked others kept rest reached : List Addr}
    {info : Ti → LrcuThreadInfo} {rbt added : LrcuRangetree} {e : Addr} {pass : NodePass Addr Ti}
    {sample : Sample} {visit : Visit}
    (ok : NodeWalkOk ti loop currentVersion samples walked others info rbt kept (e :: rest) reached
      pass)
    (visits : loop.visit currentVersion (pass.nodes.info (ti e)) sample = visit)
    (adds : addVisitRange pass.rbt visit.range = some added) (later : List Sample) :
    visitAll loop currentVersion
        ((pass.visits ++ [NodeVisit.mk e sample visit.range]).map NodeVisit.sample ++ later)
        ⟨threadLists ti loop walked others info, 0, rbt⟩ =
      visitAll loop currentVersion later
        (if visit.moves then
          ⟨threadLists ti loop (kept ++ rest) (e :: reached)
            (Function.update pass.nodes.info (ti e) visit.info), kept.length, added⟩
        else
          ⟨threadLists ti loop (kept ++ e :: rest) reached
            (Function.update pass.nodes.info (ti e) visit.info), kept.length + 1, added⟩) := by
  have found : ((threadLists ti loop (kept ++ e :: rest) reached
      pass.nodes.info).walked loop)[kept.length]? = some (ti e) := by
    rw [walked_threadLists]
    simp
  have data : (threadLists ti loop (kept ++ e :: rest) reached pass.nodes.info).info =
      pass.nodes.info := by
    cases loop <;> rfl
  rw [List.map_append, List.append_assoc, List.map_singleton, List.singleton_append, ok.refines,
    visitAll]
  simp only [visitNext, found, data, visits, adds, Option.map_some, Option.bind_some,
    setInfo_threadLists, move_threadLists]

/-- What can stop a pass: the debug check, on lists that are together as long as
its bound, and a reader of the reserved version. -/
def PassFails (debug : Bool) (samples : PassLoop → Nat → Sample) (count : Nat) : Prop :=
  debug = true ∧ lrcuListCheckLoopDepth ≤ count ∨ ¬ NoneReserved samples count

private theorem visitNode_meets {debug : Bool} {fuel : Nat} {ti : Addr → Ti} {loop : PassLoop}
    {currentVersion : Nat} {samples : PassLoop → Nat → Sample} {walked others : List Addr}
    {info : Ti → LrcuThreadInfo} {rbt : LrcuRangetree} (distinct : (walked ++ others).Nodup)
    (enough : (walked ++ others).length < fuel) {kept rest reached : List Addr} {e : Addr}
    {pass : NodePass Addr Ti}
    (ok : NodeWalkOk ti loop currentVersion samples walked others info rbt kept (e :: rest) reached
      pass) :
    BodyMeets
      (fun kept rest pass => ∃ reached,
        NodeWalkOk ti loop currentVersion samples walked others info rbt kept rest reached pass)
      (fun _ => False) (PassFails debug samples (walked ++ others).length) kept e rest
      (visitNode debug fuel ti loop currentVersion (samples loop) pass e kept.getLast?) := by
  have visited : (pass.visits.map NodeVisit.e ++ [e]) ++ rest = walked := by
    rw [List.append_assoc, List.singleton_append, ok.visited]
  have inside : pass.visits.length < (walked ++ others).length := by
    rw [← visited]
    simp
  obtain ⟨sample, sampled⟩ : ∃ sample, samples loop pass.visits.length = sample := ⟨_, rfl⟩
  obtain ⟨visit, visits⟩ : ∃ visit,
    loop.visit currentVersion (pass.nodes.info (ti e)) sample = visit := ⟨_, rfl⟩
  have range : (sample.lns.counter = 0 ∧ visit.range = none) ∨ sample.lns.counter ≠ 0 ∧
      ∃ maxv, visit.range = some ⟨sample.lns.version, maxv⟩ :=
    visits ▸ visit_range loop currentVersion (pass.nodes.info (ti e)) sample
  simp only [visitNode, sampled, visits]
  cases adds : addVisitRange pass.rbt visit.range with
  | none =>
      refine BodyMeets.fails (Or.inr fun unreserved => ?_)
      obtain ⟨added, completes⟩ :=
        addVisitRange_completes ok.rangesOk (ok.valid unreserved) visit.range
      exact absurd (adds.symm.trans completes) (by simp)
  | some added =>
  rw [Option.bind_some]
  set new : NodeVisit Addr := ⟨e, sample, visit.range⟩ with newDef
  have starts : ∀ other ∈ pass.visits ++ [new], other.sample.lns.counter ≠ 0 →
      ∃ maxv, other.range = some ⟨other.sample.lns.version, maxv⟩ := by
    intro other member active
    rcases List.mem_append.mp member with earlier | last
    · exact ok.starts other earlier active
    · obtain rfl := List.mem_singleton.mp last
      rcases range with ⟨idle, _⟩ | ⟨_, adding⟩
      · exact absurd idle active
      · exact adding
  have valid : NoneReserved samples (walked ++ others).length → added.Valid := by
    intro unreserved
    apply (ok.valid unreserved).addVisitRange ok.rangesOk _ adds
    intro other adding
    rcases range with ⟨_, idle⟩ | ⟨active, maxv, added⟩
    · exact absurd (idle.symm.trans adding) (by simp)
    · obtain rfl := Option.some.inj (added.symm.trans adding)
      have sampledBelow := unreserved loop _ inside
      rw [sampled] at sampledBelow
      exact sampledBelow active
  have samplesTaken : (pass.visits ++ [new]).map NodeVisit.sample =
      (List.range (pass.visits ++ [new]).length).map (samples loop) := by
    rw [List.map_append, ok.sampled, List.length_append, List.length_singleton, List.range_succ,
      List.map_append, List.map_singleton, List.map_singleton, sampled]
  have fills : run applyRangeOp rbt (addAll (visitRanges (pass.visits ++ [new]))) = some added :=
    run_visitRanges_concat ok.fills adds
  have rangesOk : RangetreeOk added := rangetreeOk_addVisitRange ok.rangesOk adds
  set updated := Function.update pass.nodes.info (ti e) visit.info with updatedDef
  have refines := ok.refines_concat visits adds
  rw [← newDef, ← updatedDef] at refines
  cases moves : visit.moves with
  | false =>
      simp only [moves, Bool.false_eq_true, if_false] at refines ⊢
      apply BodyMeets.keeps
      refine ⟨reached, ?_, ok.otherChain, ?_, ?_, samplesTaken, starts, fills, rangesOk, valid, ?_⟩
      · simpa using ok.chain
      · simpa using ok.same
      · simpa [newDef] using visited
      · simpa using refines
  | true =>
      simp only [moves, if_true] at refines ⊢
      have same := ok.same
      have apart : ∀ addr ∈ kept ++ e :: rest, addr ∉ reached := by
        intro addr inside outside
        exact (List.nodup_append.mp (same.nodup_iff.mpr distinct)).2.2 addr inside addr outside rfl
      have moving := ThreadNodes.move_cases debug { pass.nodes with info := updated }
        ok.chain ok.otherChain apart (same.length_eq ▸ enough)
      rcases moving with ⟨moved, ran, data, left, pushed, _⟩ | ⟨failed, checked, long⟩
      · rw [ran]
        apply BodyMeets.unlinks _ ok.chain.absent
        refine ⟨e :: reached, left, pushed, ?_, ?_, samplesTaken, starts, fills, rangesOk, valid,
          ?_⟩
        · refine List.Perm.trans ?_ same
          simp only [List.append_assoc, List.cons_append]
          exact (List.perm_middle.append_left kept)
        · simpa [newDef] using visited
        · simpa only [data] using refines
      · rw [failed]
        exact .fails (Or.inl ⟨checked, same.length_eq ▸ long⟩)

/-- A whole loop ends behind the last node of the list it walks, or it fails an
assertion. -/
theorem visitNodes_cases (debug : Bool) {fuel : Nat} (ti : Addr → Ti) {loop : PassLoop}
    (currentVersion : Nat) (samples : PassLoop → Nat → Sample) {nodes : ThreadNodes Addr Ti}
    {walked others : List Addr} {rbt : LrcuRangetree}
    (chain : Chain nodes.next (nodes.head loop) walked)
    (otherChain : Chain nodes.next (nodes.head loop.other) others)
    (distinct : (walked ++ others).Nodup) (enough : (walked ++ others).length < fuel)
    (rangesOk : RangetreeOk rbt)
    (valid : NoneReserved samples (walked ++ others).length → rbt.Valid) :
    (visitNodes debug fuel ti loop currentVersion (samples loop) nodes rbt = none ∧
      PassFails debug samples (walked ++ others).length) ∨
    ∃ pass kept reached,
      visitNodes debug fuel ti loop currentVersion (samples loop) nodes rbt = some pass ∧
        NodeWalkOk ti loop currentVersion samples walked others nodes.info rbt kept [] reached
          pass := by
  have room : walked.length < fuel := by
    rw [List.length_append] at enough
    omega
  have met : LoopMeets
      (fun kept rest pass => ∃ reached,
        NodeWalkOk ti loop currentVersion samples walked others nodes.info rbt kept rest reached
          pass)
      (fun _ => False) (PassFails debug samples (walked ++ others).length)
      (lrcuListForEach debug (NodePass.list loop)
        (visitNode debug fuel ti loop currentVersion (samples loop)) fuel ⟨nodes, rbt, []⟩) := by
    apply lrcuListForEach_rule _ _ _ _ _ room
    · intro checked long
      exact Or.inl ⟨checked, long.trans (by rw [List.length_append]; omega)⟩
    · exact ⟨others, chain, otherChain, .refl _, rfl, rfl, by simp, rfl, rangesOk, valid,
        fun later => rfl⟩
    · rintro kept rest pass ⟨reached, ok⟩
      exact ok.chain
    · rintro kept e rest pass ⟨reached, ok⟩
      exact visitNode_meets distinct enough ok
  unfold visitNodes
  generalize lrcuListForEach debug (NodePass.list loop)
    (visitNode debug fuel ti loop currentVersion (samples loop)) fuel
      ⟨nodes, rbt, []⟩ = result at met
  cases met with
  | @ends kept pass holds =>
      obtain ⟨reached, ok⟩ := holds
      exact Or.inr ⟨pass, kept, reached, rfl, ok⟩
  | leaves impossible => exact impossible.elim
  | fails failed => exact Or.inl ⟨rfl, failed⟩

omit [DecidableEq Addr] in
theorem NodeWalkOk.completes {ti : Addr → Ti} {loop : PassLoop} {currentVersion : Nat}
    {samples : PassLoop → Nat → Sample} {walked others kept reached : List Addr}
    {info : Ti → LrcuThreadInfo} {rbt : LrcuRangetree} {pass : NodePass Addr Ti}
    (ok : NodeWalkOk ti loop currentVersion samples walked others info rbt kept [] reached pass) :
    visitAll loop currentVersion ((List.range walked.length).map (samples loop))
        ⟨threadLists ti loop walked others info, 0, rbt⟩ =
      some ⟨threadLists ti loop kept reached pass.nodes.info, kept.length, pass.rbt⟩ := by
  have lengths : pass.visits.length = walked.length := by
    rw [← ok.visited, List.append_nil, List.length_map]
  have visited := ok.refines []
  rw [List.append_nil, ok.sampled, lengths, List.append_nil] at visited
  rw [visited, visitAll, walked_threadLists, if_neg (by simp)]

/-! ## Both loops -/

section Registry

variable (debug : Bool) {fuel : Nat} {nodes : ThreadNodes Addr Ti} {threads hung : List Addr}
  {rbt : LrcuRangetree}

private theorem bothLoops_cases (ti : Addr → Ti) (currentVersion : Nat)
    (samples : PassLoop → Nat → Sample)
    (chain : Chain nodes.next (nodes.head .threads) threads)
    (hungChain : Chain nodes.next (nodes.head .hungThreads) hung)
    (distinct : (threads ++ hung).Nodup) (enough : (threads ++ hung).length < fuel)
    (rangesOk : RangetreeOk rbt) (valid : rbt.Valid) :
    (lrcuGetSynchronizedNodes debug fuel ti currentVersion samples nodes rbt = none ∧
      PassFails debug samples (threads ++ hung).length) ∨
    ∃ middle last kept reached hungKept hungReached,
      visitNodes debug fuel ti .threads currentVersion (samples .threads) nodes rbt =
          some middle ∧
        visitNodes debug fuel ti .hungThreads currentVersion (samples .hungThreads)
            middle.nodes middle.rbt = some last ∧
        NodeWalkOk ti .threads currentVersion samples threads hung nodes.info rbt kept []
            reached middle ∧
        NodeWalkOk ti .hungThreads currentVersion samples reached kept middle.nodes.info
            middle.rbt hungKept [] hungReached last := by
  rcases visitNodes_cases debug ti currentVersion samples chain hungChain distinct enough
      rangesOk fun _ => valid with ⟨failed, long⟩ | ⟨middle, kept, reached, ran, ok⟩
  · exact Or.inl ⟨by rw [lrcuGetSynchronizedNodes, failed]; rfl, long⟩
  · have swapped : (reached ++ kept).Perm (threads ++ hung) :=
      List.perm_append_comm.trans (by simpa using ok.same)
    have keptChain : Chain middle.nodes.next (middle.nodes.head .threads) kept := by
      simpa using ok.chain
    rcases visitNodes_cases debug ti currentVersion samples ok.otherChain keptChain
        (swapped.nodup_iff.mpr distinct) (swapped.length_eq ▸ enough) ok.rangesOk
        (swapped.length_eq ▸ ok.valid) with
      ⟨failed, fails⟩ | ⟨last, hungKept, hungReached, hungRan, hungOk⟩
    · change visitNodes debug fuel ti .hungThreads currentVersion (samples .hungThreads) _ _ =
        none at failed
      refine Or.inl ⟨?_, swapped.length_eq ▸ fails⟩
      rw [lrcuGetSynchronizedNodes, ran, Option.bind_some, failed]
      rfl
    · exact Or.inr ⟨middle, last, kept, reached, hungKept, hungReached, ran, hungRan, ok, hungOk⟩

/-- On the threads that the nodes stand for, the pass is
`lrcuGetSynchronized`. -/
theorem lrcuGetSynchronizedNodes_refines (ti : Addr → Ti) (currentVersion : Nat)
    (samples : PassLoop → Nat → Sample) {final : ThreadNodes Addr Ti} {merged : LrcuRangetree}
    (chain : Chain nodes.next (nodes.head .threads) threads)
    (hungChain : Chain nodes.next (nodes.head .hungThreads) hung)
    (distinct : (threads ++ hung).Nodup) (enough : (threads ++ hung).length < fuel)
    (rangesOk : RangetreeOk rbt) (valid : rbt.Valid)
    (ran : lrcuGetSynchronizedNodes debug fuel ti currentVersion samples nodes rbt =
      some (final, merged)) :
    ∃ threads' hung' hungThen : List Addr,
      Chain final.next (final.head .threads) threads' ∧
        Chain final.next (final.head .hungThreads) hung' ∧
        lrcuGetSynchronized currentVersion
            ((List.range threads.length).map (samples .threads))
            ((List.range hungThen.length).map (samples .hungThreads))
            ⟨threads.map ti, hung.map ti, nodes.info⟩ rbt =
          some (⟨threads'.map ti, hung'.map ti, final.info⟩, merged) := by
  rcases bothLoops_cases debug ti currentVersion samples chain hungChain distinct enough rangesOk
      valid with
    ⟨failed, _⟩ | ⟨middle, last, kept, reached, hungKept, hungReached, first, second, ok, hungOk⟩
  · exact absurd (failed.symm.trans ran) (by simp)
  · simp only [lrcuGetSynchronizedNodes, first, Option.bind_some, second, Option.map_eq_some_iff,
      Prod.exists, Prod.mk.injEq] at ran
    obtain ⟨_, room, optimized, rfl, rfl⟩ := ran
    refine ⟨hungReached, hungKept, reached, hungOk.otherChain, by simpa using hungOk.chain, ?_⟩
    have firstLoop := ok.completes
    have secondLoop := hungOk.completes
    simp only [threadLists] at firstLoop secondLoop
    simp only [lrcuGetSynchronized, firstLoop, Option.bind_some, secondLoop, optimized,
      Option.map_some]

end Registry

end LightRcu
