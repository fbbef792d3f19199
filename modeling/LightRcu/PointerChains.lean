import Mathlib.Data.List.Basic
import Mathlib.Logic.Function.Basic

/-!
# Chains of pointers

A singly linked list in a heap of `next` pointers: the addresses that a walk
visits from one pointer until it arrives at another.  A store to the `next`
field of a visited address only matters to what comes behind it.
-/

namespace LightRcu

variable {Addr : Type*}

/-- From the first pointer, a walk visits the given addresses and arrives at
the second pointer. -/
def Segment (next : Addr → Option Addr) : Option Addr → List Addr → Option Addr → Prop
  | start, [], stop => start = stop
  | start, addr :: rest, stop => start = some addr ∧ Segment next (next addr) rest stop

/-- A walk from the first pointer visits the given addresses and ends. -/
def Chain (next : Addr → Option Addr) (head : Option Addr) (addrs : List Addr) : Prop :=
  Segment next head addrs none

variable {next next' : Addr → Option Addr} {start stop head : Option Addr}
  {addrs : List Addr}

@[simp]
theorem segment_nil : Segment next start [] stop ↔ start = stop :=
  Iff.rfl

@[simp]
theorem segment_cons {addr : Addr} {rest : List Addr} :
    Segment next start (addr :: rest) stop ↔
      start = some addr ∧ Segment next (next addr) rest stop :=
  Iff.rfl

theorem segment_append {first second : List Addr} :
    Segment next start (first ++ second) stop ↔
      ∃ middle, Segment next start first middle ∧ Segment next middle second stop := by
  induction first generalizing start with
  | nil => simp
  | cons addr rest ih => simp [ih, and_assoc]

/-- A segment depends on the fields that it visits only. -/
theorem Segment.congr (segment : Segment next start addrs stop)
    (same : ∀ addr ∈ addrs, next' addr = next addr) : Segment next' start addrs stop := by
  induction addrs generalizing start with
  | nil => exact segment
  | cons addr rest ih =>
      refine ⟨segment.1, ?_⟩
      rw [same addr List.mem_cons_self]
      exact ih segment.2 fun other member => same other (List.mem_cons_of_mem _ member)

theorem Chain.congr (chain : Chain next head addrs)
    (same : ∀ addr ∈ addrs, next' addr = next addr) : Chain next' head addrs :=
  Segment.congr chain same

theorem chain_none : Chain next none addrs ↔ addrs = [] := by
  cases addrs with
  | nil => simp [Chain]
  | cons addr rest => simp [Chain]

theorem Chain.head_eq (chain : Chain next head addrs) : head = addrs[0]? := by
  cases addrs with
  | nil => exact chain
  | cons addr rest => exact chain.1

theorem Chain.unique {others : List Addr} (chain : Chain next head addrs)
    (other : Chain next head others) : addrs = others := by
  induction addrs generalizing head others with
  | nil =>
      obtain rfl : head = none := chain
      exact (chain_none.mp other).symm
  | cons addr rest ih =>
      obtain ⟨rfl, behind⟩ := chain
      cases others with
      | nil => exact absurd other (by simp [Chain])
      | cons otherAddr otherRest =>
          obtain ⟨same, otherBehind⟩ := other
          obtain rfl := Option.some.inj same
          rw [ih behind otherBehind]

/-- A walk that ends has met no address twice. -/
theorem Chain.nodup (chain : Chain next head addrs) : addrs.Nodup := by
  induction addrs generalizing head with
  | nil => exact List.nodup_nil
  | cons addr rest ih =>
      obtain ⟨rfl, behind⟩ := chain
      refine List.nodup_cons.mpr ⟨fun member => ?_, ih behind⟩
      -- the walk from a second visit would be both as long as the first and shorter
      obtain ⟨before, after, rfl⟩ := List.append_of_mem member
      obtain ⟨_, _, again⟩ := segment_append.mp behind
      obtain ⟨rfl, tail⟩ := again
      have same : before ++ addr :: after = after := Chain.unique behind tail
      have lengths := congrArg List.length same
      simp only [List.length_append, List.length_cons] at lengths
      omega

theorem Chain.absent {kept rest : List Addr} {n : Addr}
    (chain : Chain next head (kept ++ n :: rest)) : n ∉ kept ++ rest := by
  have distinct := List.nodup_append.mp chain.nodup
  intro member
  rcases List.mem_append.mp member with earlier | later
  · exact distinct.2.2 n earlier n List.mem_cons_self rfl
  · exact (List.nodup_cons.mp distinct.2.1).1 later

theorem Chain.next_eq {index : Nat} {addr : Addr} (chain : Chain next head addrs)
    (found : addrs[index]? = some addr) : next addr = addrs[index + 1]? := by
  induction addrs generalizing head index with
  | nil => simp at found
  | cons first rest ih =>
      cases index with
      | zero =>
          obtain rfl : first = addr := by simpa using found
          simpa using Chain.head_eq chain.2
      | succ index => simpa using ih chain.2 (by simpa using found)

/-- What an address or the head points to, when it comes just before the rest. -/
theorem Chain.behind {kept rest : List Addr} (chain : Chain next head (kept ++ rest)) :
    kept.getLast?.elim head next = rest.head? := by
  rcases List.eq_nil_or_concat' kept with rfl | ⟨front, last, rfl⟩
  · simpa [List.head?_eq_getElem?] using chain.head_eq
  · have found : ((front ++ [last]) ++ rest)[front.length]? = some last := by simp
    have next := chain.next_eq found
    rw [List.getElem?_append_right (by simp)] at next
    simpa [List.head?_eq_getElem?] using next

theorem Chain.head_before {target : Addr} (chain : Chain next head addrs)
    (member : target ∈ addrs) :
    ∃ addr, head = some addr ∧ (addr = target ∨ [addr, target].Sublist addrs) := by
  cases addrs with
  | nil => exact absurd member List.not_mem_nil
  | cons addr rest =>
      refine ⟨addr, chain.1, ?_⟩
      rcases List.mem_cons.mp member with rfl | later
      · exact Or.inl rfl
      · exact Or.inr ((List.singleton_sublist.mpr later).cons_cons addr)

theorem Chain.not_before_head {addr first : Addr} (chain : Chain next (some first) addrs) :
    ¬ [addr, first].Sublist addrs := by
  intro before
  cases addrs with
  | nil => exact absurd before (by simp)
  | cons other rest =>
      obtain rfl := Option.some.inj chain.1
      have behind : first ∈ rest := by
        rcases List.sublist_cons_iff.mp before with later | ⟨_, same, later⟩
        · exact later.subset (by simp)
        · obtain ⟨_, rfl⟩ := List.cons.inj same
          exact later.subset (by simp)
      exact (List.nodup_cons.mp chain.nodup).1 behind

theorem Chain.next_before {addr target : Addr} (chain : Chain next head addrs)
    (before : [addr, target].Sublist addrs) :
    ∃ other, next addr = some other ∧ (other = target ∨ [other, target].Sublist addrs) := by
  induction addrs generalizing head with
  | nil => exact absurd before (by simp)
  | cons first rest ih =>
      rcases List.sublist_cons_iff.mp before with later | ⟨_, same, later⟩
      · obtain ⟨other, found, reached⟩ := ih chain.2 later
        exact ⟨other, found, reached.imp_right fun reached => reached.cons first⟩
      · obtain ⟨rfl, rfl⟩ := List.cons.inj same
        obtain ⟨other, found, reached⟩ :=
          Chain.head_before chain.2 (List.singleton_sublist.mp later)
        exact ⟨other, found, reached.imp_right fun reached => reached.cons addr⟩

section Stores

variable [DecidableEq Addr]

/-- A store to a field that is not visited leaves a segment alone. -/
theorem Segment.update {addr : Addr} (segment : Segment next start addrs stop)
    (absent : addr ∉ addrs) (target : Option Addr) :
    Segment (Function.update next addr target) start addrs stop := by
  apply segment.congr
  intro other member
  exact Function.update_of_ne (ne_of_mem_of_not_mem member absent) _ _

theorem Chain.update {addr : Addr} (chain : Chain next head addrs) (absent : addr ∉ addrs)
    (target : Option Addr) : Chain (Function.update next addr target) head addrs :=
  Segment.update chain absent target

/-- What comes behind an address that occurs once is replaced by a store to its
field. -/
theorem Segment.store {before : List Addr} {addr : Addr} {target : Option Addr}
    (segment : Segment next start (before ++ [addr]) stop) (fresh : addr ∉ before) :
    Segment (Function.update next addr target) start (before ++ [addr]) target := by
  obtain ⟨middle, visited, last⟩ := segment_append.mp segment
  exact segment_append.mpr ⟨middle, visited.update fresh target, last.1, by simp⟩

theorem Chain.cons {addr : Addr} (chain : Chain next head addrs) (fresh : addr ∉ addrs) :
    Chain (Function.update next addr head) (some addr) (addr :: addrs) := by
  refine ⟨rfl, ?_⟩
  rw [Function.update_self]
  exact chain.update fresh head

theorem Chain.append {before others : List Addr} {last : Addr} {target : Option Addr}
    (chain : Chain next head (before ++ [last])) (other : Chain next target others)
    (fresh : last ∉ before) (apart : last ∉ others) :
    Chain (Function.update next last target) head (before ++ [last] ++ others) :=
  segment_append.mpr ⟨target, Segment.store chain fresh, other.update apart target⟩

theorem Chain.tail {addr : Addr} {rest : List Addr} (chain : Chain next head (addr :: rest))
    (fresh : addr ∉ rest) (target : Option Addr) :
    Chain (Function.update next addr target) (next addr) rest :=
  Chain.update chain.2 fresh target

/-- Without an address in the middle: its own field is cleared and its
predecessor is redirected. -/
theorem Chain.remove {before rest : List Addr} {previous addr : Addr} {target : Option Addr}
    (chain : Chain next head (before ++ previous :: addr :: rest))
    (distinct : (before ++ previous :: addr :: rest).Nodup) :
    Chain (Function.update (Function.update next addr target) previous (next addr)) head
      (before ++ previous :: rest) := by
  rw [List.nodup_append] at distinct
  obtain ⟨_, distinct, apart⟩ := distinct
  obtain ⟨previousFresh, distinct⟩ := List.nodup_cons.mp distinct
  obtain ⟨addrFresh, _⟩ := List.nodup_cons.mp distinct
  rw [show before ++ previous :: addr :: rest = before ++ [previous] ++ addr :: rest by simp]
    at chain
  obtain ⟨middle, visited, removed⟩ := segment_append.mp chain
  rw [show before ++ previous :: rest = before ++ [previous] ++ rest by simp]
  have kept : Segment (Function.update next addr target) head (before ++ [previous]) middle := by
    apply visited.update
    intro member
    rcases List.mem_append.mp member with earlier | last
    · exact apart _ earlier _ (List.mem_cons_of_mem _ List.mem_cons_self) rfl
    · exact previousFresh (by simp [List.mem_singleton.mp last])
  refine segment_append.mpr ⟨next addr, kept.store fun member => ?_, ?_⟩
  · exact apart _ member _ List.mem_cons_self rfl
  · have behind : Segment (Function.update next addr target) (next addr) rest none :=
      removed.2.update addrFresh target
    exact behind.update (fun member => previousFresh (List.mem_cons_of_mem _ member)) _

end Stores

end LightRcu
