import LightRcu.ListUnlinking
import LightRcu.NamespaceRemoval

/-!
# Lazy reclamation of a namespace

The worker asks `lrcu_ns_destructor` again and again whether every thread has
left a namespace that was removed.  The loop unlinks the threads that have and
looks whether `ns->threads` is empty.  The thread of the worker is on that list
from the start and never enters a read section, so it never leaves, and the
threads on `ns->hung_threads` are not asked.
-/

namespace LightRcu

/-- The fields of `struct lrcu_namespace` that `lrcu_ns_destructor` works on,
with the nodes of both thread lists. -/
structure NsNodes (Addr : Type*) where
  id : NsId
  version : Nat
  next : Addr → Option Addr
  head : PassLoop → Option Addr

/-- The value that `lrcu_ns_destructor` returns, whether it has freed the
namespace, and the nodes afterwards. -/
structure NsDestructorResult (Addr : Type*) where
  returns : Bool
  freed : Bool
  ns : NsNodes Addr

/-- `counter == 0 && version >= ns->version` -/
def hasLeftNs (version : Nat) (lns : LrcuLocalNamespace) : Bool :=
  lns.counter == 0 && decide (lns.version ≥ version)

variable {Addr Ti : Type*} [DecidableEq Addr]

/-- `lrcu_ns_destructor` over the nodes.  A node `e` points to the thread
`ti e`, and whoever gets the memory of a freed node may store anything there. -/
def lrcuNsDestructorNodes (debug : Bool) (fuel : Nat) (ti : Addr → Ti)
    (lns : Ti → NsId → LrcuLocalNamespace) (reused : Addr → Option Addr) (ns : NsNodes Addr)
    (forced : Bool) : Option (NsDestructorResult Addr) :=
  let remove := fun e => forced || hasLeftNs ns.version (lns (ti e) ns.id)
  (lrcuListForEach debug UnlinkingState.list (unlinkingBody debug fuel remove reused) fuel
      ⟨ns.next, ns.head .threads, []⟩).map fun
    | .proceed final =>
        let ns := { ns with
          next := final.next
          head := Function.update ns.head .threads final.head }
        if final.head = none then ⟨true, true, ns⟩ else ⟨false, false, ns⟩
    | .leave value => value.elim

variable {debug forced : Bool} {fuel : Nat} {ti : Addr → Ti}
  {lns : Ti → NsId → LrcuLocalNamespace} {reused : Addr → Option Addr} {ns : NsNodes Addr}
  {addrs hungAddrs : List Addr} {workerTi : Ti}

/-! ## What the destructor does -/

/-- The nodes that stay on `ns->threads`. -/
def nodesLeft (ti : Addr → Ti) (lns : Ti → NsId → LrcuLocalNamespace) (ns : NsNodes Addr)
    (forced : Bool) (addrs : List Addr) : List Addr :=
  addrs.filter fun e => !(forced || hasLeftNs ns.version (lns (ti e) ns.id))

/-- The destructor unlinks the threads that have left, and frees the namespace
when that were all of those on `ns->threads`. -/
theorem lrcuNsDestructorNodes_spec (ti : Addr → Ti) (lns : Ti → NsId → LrcuLocalNamespace)
    (reused : Addr → Option Addr) (forced : Bool) (chain : Chain ns.next (ns.head .threads) addrs)
    (enough : addrs.length < fuel) (short : debug = true → addrs.length < lrcuListCheckLoopDepth) :
    ∃ result, lrcuNsDestructorNodes debug fuel ti lns reused ns forced = some result ∧
      Chain result.ns.next (result.ns.head .threads) (nodesLeft ti lns ns forced addrs) ∧
      result.ns.head .hungThreads = ns.head .hungThreads ∧
      (∀ addr, addr ∉ addrs → result.ns.next addr = ns.next addr) ∧
      (result.returns = true ↔ nodesLeft ti lns ns forced addrs = []) ∧
      result.freed = result.returns := by
  obtain ⟨final, ran, _, left, frame⟩ := lrcuListForEach_unlinking_spec
    (fun e => forced || hasLeftNs ns.version (lns (ti e) ns.id)) reused chain enough short
  change Chain final.next final.head (nodesLeft ti lns ns forced addrs) at left
  have emptied : final.head = none ↔ nodesLeft ti lns ns forced addrs = [] := by
    constructor
    · intro ended
      rw [ended] at left
      exact chain_none.mp left
    · intro nothing
      rw [nothing] at left
      exact left
  refine ⟨_, by rw [lrcuNsDestructorNodes, ran]; rfl, ?_⟩
  simp only
  split_ifs with ended
  · exact ⟨left, rfl, frame, by simpa using emptied.mp ended, rfl⟩
  · exact ⟨left, rfl, frame, by simpa using mt emptied.mpr ended, rfl⟩

theorem lrcuNsDestructorNodes_tooLong (chain : Chain ns.next (ns.head .threads) addrs)
    (enough : addrs.length < fuel) (long : lrcuListCheckLoopDepth ≤ addrs.length) :
    lrcuNsDestructorNodes true fuel ti lns reused ns forced = none := by
  have stopped : lrcuListCheckLoop true fuel
      (UnlinkingState.list ⟨ns.next, ns.head .threads, []⟩) = false := by
    rw [UnlinkingState.list, lrcuListCheckLoop_eq true chain enough]
    simpa using long
  rw [lrcuNsDestructorNodes, lrcuListForEach, stopped]
  rfl

theorem lrcuNsDestructorNodes_refines (chain : Chain ns.next (ns.head .threads) addrs)
    (enough : addrs.length < fuel) (short : debug = true → addrs.length < lrcuListCheckLoopDepth)
    {found : LrcuNamespace} (version : found.version = ns.version)
    (threads : found.threads = addrs.map fun e => lns (ti e) ns.id) :
    ∃ result left, lrcuNsDestructorNodes debug fuel ti lns reused ns forced = some result ∧
      Chain result.ns.next (result.ns.head .threads) left ∧
      lrcuNsDestructor found forced =
        if result.returns then none
        else some { found with threads := left.map fun e => lns (ti e) ns.id } := by
  obtain ⟨result, ran, left, _, _, returns, _⟩ :=
    lrcuNsDestructorNodes_spec ti lns reused forced chain enough short
  refine ⟨result, _, ran, left, ?_⟩
  have kept : (found.threads.filter fun lns =>
      !(forced || (lns.counter == 0 && decide (lns.version ≥ found.version)))) =
        (nodesLeft ti lns ns forced addrs).map fun e => lns (ti e) ns.id := by
    rw [threads, version, List.filter_map]
    rfl
  rw [lrcuNsDestructor]
  simp only [kept, List.isEmpty_iff, List.map_eq_nil_iff, returns]

/-! ## Whether that is right -/

/-- The namespace is freed exactly when every registered thread but the one of
the worker has left it, and else no thread that has not loses its node. -/
def ReclaimsLazily (debug : Bool) (fuel : Nat) (ti : Addr → Ti)
    (lns : Ti → NsId → LrcuLocalNamespace) (reused : Addr → Option Addr) (ns : NsNodes Addr)
    (workerTi : Ti) (addrs hungAddrs : List Addr) : Prop :=
  ∃ result, lrcuNsDestructorNodes debug fuel ti lns reused ns false = some result ∧
    (result.freed = true ∧ result.returns = true ↔
      ∀ e ∈ addrs ++ hungAddrs, ti e ≠ workerTi →
        hasLeftNs ns.version (lns (ti e) ns.id) = true) ∧
    (result.returns = false →
      ∃ left hungLeft, Chain result.ns.next (result.ns.head .threads) left ∧
        Chain result.ns.next (result.ns.head .hungThreads) hungLeft ∧
        (∀ e ∈ addrs, hasLeftNs ns.version (lns (ti e) ns.id) = false → e ∈ left) ∧
        ∀ e ∈ hungAddrs, hasLeftNs ns.version (lns (ti e) ns.id) = false → e ∈ hungLeft)

omit [DecidableEq Addr] in
theorem nodesLeft_eq_nil_iff :
    nodesLeft ti lns ns false addrs = [] ↔
      ∀ e ∈ addrs, hasLeftNs ns.version (lns (ti e) ns.id) = true := by
  simp [nodesLeft, List.filter_eq_nil_iff]

/-- When the loop runs, what counts is whether all of `ns->threads` have left
exactly when all threads but the worker's have. -/
theorem reclaimsLazily_iff_decision (ti : Addr → Ti) (lns : Ti → NsId → LrcuLocalNamespace)
    (reused : Addr → Option Addr) (workerTi : Ti)
    (chain : Chain ns.next (ns.head .threads) addrs)
    (hungChain : Chain ns.next (ns.head .hungThreads) hungAddrs)
    (apart : ∀ e ∈ hungAddrs, e ∉ addrs) (enough : addrs.length < fuel)
    (short : debug = true → addrs.length < lrcuListCheckLoopDepth) :
    ReclaimsLazily debug fuel ti lns reused ns workerTi addrs hungAddrs ↔
      ((∀ e ∈ addrs, hasLeftNs ns.version (lns (ti e) ns.id) = true) ↔
        ∀ e ∈ addrs ++ hungAddrs, ti e ≠ workerTi →
          hasLeftNs ns.version (lns (ti e) ns.id) = true) := by
  obtain ⟨result, ran, left, hungHead, frame, returns, freed⟩ :=
    lrcuNsDestructorNodes_spec ti lns reused false chain enough short
  rw [nodesLeft_eq_nil_iff] at returns
  have stays : ∀ e ∈ addrs, hasLeftNs ns.version (lns (ti e) ns.id) = false →
      e ∈ nodesLeft ti lns ns false addrs := by
    intro e member staying
    exact List.mem_filter.mpr ⟨member, by simp [staying]⟩
  have hungLeft : Chain result.ns.next (result.ns.head .hungThreads) hungAddrs := by
    rw [hungHead]
    exact hungChain.congr fun e member => frame e (apart e member)
  constructor
  · rintro ⟨result', ran', right, _⟩
    obtain rfl := Option.some.inj (ran.symm.trans ran')
    rwa [freed, and_self, returns] at right
  · intro right
    refine ⟨result, ran, ?_, fun _ => ⟨_, _, left, hungLeft, stays, fun e member _ => member⟩⟩
    rw [freed, and_self, returns]
    exact right

/-- The decision about `ns->threads` is the right one when both some thread
other than the worker's and some thread on that list has not left, or when all
others have left and the worker's is not on the list, where it would count from
version `1` on. -/
theorem reclaimsLazily_iff (ti : Addr → Ti) (lns : Ti → NsId → LrcuLocalNamespace)
    (reused : Addr → Option Addr) (debug : Bool)
    (chain : Chain ns.next (ns.head .threads) addrs)
    (hungChain : Chain ns.next (ns.head .hungThreads) hungAddrs)
    (apart : ∀ e ∈ hungAddrs, e ∉ addrs) (enough : addrs.length < fuel)
    (neverEntered : lns workerTi ns.id = ⟨0, 0⟩) :
    ReclaimsLazily debug fuel ti lns reused ns workerTi addrs hungAddrs ↔
      (debug = true → addrs.length < lrcuListCheckLoopDepth) ∧
        ((∃ e ∈ addrs ++ hungAddrs, ti e ≠ workerTi ∧
            hasLeftNs ns.version (lns (ti e) ns.id) = false) ∧
          (∃ e ∈ addrs, hasLeftNs ns.version (lns (ti e) ns.id) = false) ∨
        (0 < ns.version → ∀ e ∈ addrs, ti e ≠ workerTi) ∧
          ∀ e ∈ addrs ++ hungAddrs, ti e ≠ workerTi →
            hasLeftNs ns.version (lns (ti e) ns.id) = true) := by
  have workerLeft : hasLeftNs ns.version (lns workerTi ns.id) = true ↔ ¬ 0 < ns.version := by
    rw [neverEntered, hasLeftNs]
    simp
  by_cases short : debug = true → addrs.length < lrcuListCheckLoopDepth
  · rw [reclaimsLazily_iff_decision ti lns reused workerTi chain hungChain apart enough short]
    constructor
    · intro right
      refine ⟨short, ?_⟩
      by_cases all : ∀ e ∈ addrs ++ hungAddrs, ti e ≠ workerTi →
          hasLeftNs ns.version (lns (ti e) ns.id) = true
      · refine Or.inr ⟨fun started e member same => ?_, all⟩
        have gone := right.mpr all e member
        rw [same] at gone
        exact workerLeft.mp gone started
      · have remaining := mt right.mp all
        push Not at all remaining
        obtain ⟨e, member, other, staying⟩ := all
        obtain ⟨e', member', staying'⟩ := remaining
        exact Or.inl ⟨⟨e, member, other, by simpa using staying⟩,
          ⟨e', member', by simpa using staying'⟩⟩
    · rintro ⟨_, ⟨⟨e, member, other, staying⟩, e', member', staying'⟩ | ⟨absent, all⟩⟩
      · refine iff_of_false (fun gone => ?_) (fun gone => ?_)
        · exact absurd ((gone e' member').symm.trans staying') (by simp)
        · exact absurd ((gone e member other).symm.trans staying) (by simp)
      · refine iff_of_true (fun e member => ?_) all
        by_cases its : ti e = workerTi
        · rw [its]
          exact workerLeft.mpr fun started => absent started e member its
        · exact all e (List.mem_append_left _ member) its
  · -- the check at the start of the loop fails
    obtain ⟨rfl, long⟩ : debug = true ∧ lrcuListCheckLoopDepth ≤ addrs.length := by
      push Not at short
      exact short
    refine iff_of_false ?_ fun holds => short holds.1
    rintro ⟨result, ran, _⟩
    rw [lrcuNsDestructorNodes_tooLong chain enough long] at ran
    exact absurd ran (by simp)

/-- A namespace at version `4` with the given heads, and nodes `1` and `2` in a
row. -/
def removedNs (threads hungThreads : Option Nat) : NsNodes Nat where
  id := 0
  version := 4
  next := fun e => if e = 1 then some 2 else none
  head := fun
    | .threads => threads
    | .hungThreads => hungThreads

/-- The thread `2` is inside a section, and `3` has left the namespace. -/
def removedLns (t : Nat) (_ : NsId) : LrcuLocalNamespace :=
  if t = 2 then ⟨3, 1⟩ else if t = 3 then ⟨5, 0⟩ else ⟨0, 0⟩

theorem reclaimsLazily_iff_reader :
    ReclaimsLazily true 3 id removedLns (fun _ => none) (removedNs (some 1) (some 3)) 1
      [1, 2] [3] :=
  (reclaimsLazily_iff id removedLns (fun _ => none) true
    (by simp [Chain, removedNs]) (by simp [Chain, removedNs]) (by decide) (by decide)
    rfl).mpr ⟨fun _ => by decide, Or.inl (by decide)⟩

/-- The thread `3` has left and only the worker's thread is left to ask, but the
namespace is not freed. -/
theorem not_reclaimsLazily :
    ¬ ∀ (fuel : Nat) (ns : NsNodes Nat) (workerTi : Nat) (addrs hungAddrs : List Nat),
      Chain ns.next (ns.head .threads) addrs → Chain ns.next (ns.head .hungThreads) hungAddrs →
      (∀ e ∈ hungAddrs, e ∉ addrs) → addrs.length < fuel → 0 < ns.version →
      removedLns workerTi ns.id = ⟨0, 0⟩ →
      ReclaimsLazily true fuel id removedLns (fun _ => none) ns workerTi addrs hungAddrs := by
  intro always
  have chain : Chain (removedNs (some 4) (some 3)).next (some 4) [4] := by
    simp [Chain, removedNs]
  have hungChain : Chain (removedNs (some 4) (some 3)).next (some 3) [3] := by
    simp [Chain, removedNs]
  obtain ⟨result, ran, decision, _⟩ := always 2 (removedNs (some 4) (some 3)) 4 [4] [3] chain
    hungChain (by decide) (by decide) (by decide) rfl
  have kept : result.returns = false := by
    obtain rfl := Option.some.inj ran
    rfl
  have returned := (decision.mpr (by decide)).2
  exact absurd (kept.symm.trans returned) (by simp)

end LightRcu
