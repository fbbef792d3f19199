import LightRcu.CallbackLists

/-!
# The links of the callback lists

What the operations of `list.h` do to the addresses of a list, and the
invariant that ties the heads and the `next` fields of a namespace to four
lists of addresses, whatever the worker and the callers do.  A call conses its
node to a free list, a splice appends a free list to the list of the worker, and
an unlink erases the element that the iteration is at, which is how
`NamespaceState` changes its four lists of callbacks.
-/

namespace LightRcu

/-! ## Operations -/

section Operations

variable {Addr : Type*} [DecidableEq Addr] {next : Addr → Option Addr}
  {head : Option Addr} {addrs : List Addr}

/-- Both branches of the insertion do the same. -/
theorem lrcuListInsert_eq (next : Addr → Option Addr) (head : Option Addr) (e : Addr) :
    lrcuListInsert next head e = (Function.update next e head, some e) := by
  unfold lrcuListInsert
  split
  next empty => rw [empty]
  next => rfl

omit [DecidableEq Addr] in
theorem lrcuListGetTailLoop_spec (chain : Chain next head addrs) {fuel : Nat}
    (enough : addrs.length < fuel) (ePrev : Option Addr) :
    lrcuListGetTailLoop next fuel head ePrev = some (addrs.getLast?.or ePrev) := by
  induction addrs generalizing head fuel ePrev with
  | nil =>
      obtain rfl : head = none := chain
      obtain ⟨fuel, rfl⟩ := Nat.exists_eq_succ_of_ne_zero (Nat.ne_of_gt enough)
      rfl
  | cons e rest ih =>
      obtain ⟨rfl, chain⟩ := chain
      obtain ⟨fuel, rfl⟩ := Nat.exists_eq_succ_of_ne_zero (Nat.ne_zero_of_lt enough)
      rw [lrcuListGetTailLoop, ih chain (by simpa using enough) (some e)]
      cases rest with
      | nil => rfl
      | cons second rest => simp [List.getLast?_cons]

theorem lrcuListSplice_spec {lh lt : Option Addr} {others : List Addr} {fuel : Nat}
    (chain : Chain next lh addrs) (other : Chain next lt others)
    (distinct : (addrs ++ others).Nodup) (enough : addrs.length < fuel) :
    ∃ next' lh', lrcuListSplice next fuel lh lt = some (next', lh', none) ∧
      Chain next' lh' (addrs ++ others) ∧ ∀ addr, addr ∉ addrs → next' addr = next addr := by
  unfold lrcuListSplice
  cases lt with
  | none =>
      obtain rfl := chain_none.mp other
      exact ⟨next, lh, by simp, by simpa using chain, fun _ _ => rfl⟩
  | some first =>
      cases lh with
      | none =>
          obtain rfl := chain_none.mp chain
          exact ⟨next, some first, by simp, by simpa using other, fun _ _ => rfl⟩
      | some start =>
          rcases List.eq_nil_or_concat' addrs with rfl | ⟨before, last, rfl⟩
          · exact absurd chain (by simp [Chain])
          · obtain ⟨first', _, apart⟩ := List.nodup_append.mp distinct
            have fresh : last ∉ before := fun member =>
              (List.nodup_append.mp first').2.2 last member last (List.mem_singleton_self last) rfl
            have behind : last ∉ others := fun member =>
              apart last (by simp) last member rfl
            have tail : lrcuListGetTail next fuel (some start) = some (some last) := by
              rw [lrcuListGetTail, lrcuListGetTailLoop_spec chain enough]
              simp
            refine ⟨Function.update next last (some first), some start, by simp [tail],
              chain.append other fresh behind, fun addr outside => ?_⟩
            exact Function.update_of_ne (ne_of_mem_of_not_mem (by simp) outside).symm _ _

/-! ## The iterator -/

/-- The `n_prev` of an iteration that has kept as many elements. -/
def previousAt (addrs : List Addr) : Nat → Option Addr
  | 0 => none
  | index + 1 => addrs[index]?

/-- The iteration is at the element `n`. -/
def VisitsAt (addrs : List Addr) (index : Nat) (n : Addr) (nPrev : Option Addr) : Prop :=
  addrs[index]? = some n ∧ nPrev = previousAt addrs index

/-- The iteration has unlinked the element `n`. -/
def RemovedAt (addrs : List Addr) (index : Nat) (n : Addr) (nPrev : Option Addr) : Prop :=
  n ∉ addrs ∧ index ≤ addrs.length ∧ nPrev = previousAt addrs index

/-- The next element of an iteration that has kept as many elements: it has just
begun, or it has kept or unlinked its last element. -/
def AdvancesTo (addrs : List Addr) (index : Nat) (n nPrev : Option Addr) : Prop :=
  (n = none ∧ nPrev = none ∧ index = 0) ∨
    ∃ last, n = some last ∧
      (RemovedAt addrs index last nPrev ∨
        ∃ before, index = before + 1 ∧ VisitsAt addrs before last nPrev)

omit [DecidableEq Addr] in
theorem advancesTo_start (addrs : List Addr) : AdvancesTo addrs 0 none none :=
  Or.inl ⟨rfl, rfl, rfl⟩

/-- The iteration goes on with the element behind those that it has kept. -/
theorem lrcuListForEachGetN_spec {index : Nat} {n nPrev : Option Addr}
    (chain : Chain next head addrs) (advances : AdvancesTo addrs index n nPrev) :
    lrcuListForEachGetN next head n nPrev = (addrs[index]?, previousAt addrs index) := by
  rcases advances with
    ⟨rfl, rfl, rfl⟩ | ⟨last, rfl, ⟨absent, inside, rfl⟩ | ⟨before, rfl, at_, rfl⟩⟩
  · simp [lrcuListForEachGetN, previousAt, chain.head_eq]
  · cases index with
    | zero =>
        have other : some last ≠ head := by
          rw [chain.head_eq]
          exact fun same => absent (List.mem_of_getElem? same.symm)
        simp [lrcuListForEachGetN, previousAt, other, ← chain.head_eq]
    | succ index =>
        have found := List.getElem?_eq_getElem (Nat.lt_of_succ_le inside)
        have other : addrs[index + 1]? ≠ some last :=
          fun same => absent (List.mem_of_getElem? same)
        rw [previousAt, found]
        simp [lrcuListForEachGetN, chain.next_eq found, other]
  · cases before with
    | zero =>
        have start : head = some last := chain.head_eq.trans at_
        simp [lrcuListForEachGetN, previousAt, start, chain.next_eq at_, at_]
    | succ before =>
        obtain ⟨inside, _⟩ := List.getElem?_eq_some_iff.mp at_
        have found := List.getElem?_eq_getElem (Nat.lt_of_succ_lt inside)
        rw [previousAt, found]
        simp [lrcuListForEachGetN, chain.next_eq found, previousAt, at_, chain.next_eq at_]

omit [DecidableEq Addr] in
private theorem split_at {index : Nat} {n : Addr} (at_ : addrs[index]? = some n) :
    ∃ before rest, addrs = before ++ n :: rest ∧ before.length = index := by
  obtain ⟨inside, rfl⟩ := List.getElem?_eq_some_iff.mp at_
  refine ⟨addrs.take index, addrs.drop (index + 1), ?_, List.length_take_of_le inside.le⟩
  rw [← List.drop_eq_getElem_cons inside, List.take_append_drop]

/-- The element that the iteration is at is taken out. -/
theorem lrcuListUnlinkNext_spec {index : Nat} {n : Addr} {nPrev : Option Addr}
    (chain : Chain next head addrs) (distinct : addrs.Nodup)
    (visits : VisitsAt addrs index n nPrev) :
    ∃ next' head', lrcuListUnlinkNext next head nPrev = some (next', head') ∧
      Chain next' head' (addrs.eraseIdx index) ∧
        (∀ addr, addr ∉ addrs → next' addr = next addr) ∧
          RemovedAt (addrs.eraseIdx index) index n nPrev := by
  obtain ⟨at_, rfl⟩ := visits
  obtain ⟨before, rest, rfl, rfl⟩ := split_at at_
  have erased : (before ++ n :: rest).eraseIdx before.length = before ++ rest := by
    rw [List.eraseIdx_append_of_length_le (Nat.le_refl _), Nat.sub_self, List.eraseIdx_cons_zero]
  have absent : n ∉ before ++ rest := by
    have apart := (List.nodup_append.mp distinct).2
    intro member
    rcases List.mem_append.mp member with earlier | later
    · exact apart.2 n earlier n List.mem_cons_self rfl
    · exact (List.nodup_cons.mp apart.1).1 later
  rw [erased]
  rcases List.eq_nil_or_concat' before with rfl | ⟨front, previous, rfl⟩
  · obtain ⟨rfl, _⟩ := id chain
    refine ⟨Function.update next n none, next n, rfl, chain.tail (by simpa using absent) none,
      fun addr outside => Function.update_of_ne ?_ _ _, absent, Nat.zero_le _, rfl⟩
    rintro rfl
    exact outside (by simp)
  · simp only [List.append_assoc, List.singleton_append] at chain distinct
    have found : (front ++ previous :: n :: rest)[front.length]? = some previous := by simp
    have behind : next previous = some n := by simpa using chain.next_eq found
    refine ⟨Function.update (Function.update next n none) previous (next n), head, ?_, ?_,
      fun addr outside => ?_, absent, by simp, ?_⟩
    · simp [lrcuListUnlinkNext, previousAt, behind]
    · simpa using chain.remove distinct
    · have notPrevious : addr ≠ previous := by
        rintro rfl
        exact outside (by simp)
      have notRemoved : addr ≠ n := by
        rintro rfl
        exact outside (by simp)
      rw [Function.update_of_ne notPrevious, Function.update_of_ne notRemoved]
    · simp [previousAt]

end Operations

/-! ## The lists of a namespace -/

variable {Addr : Type*} [DecidableEq Addr] {state next : CallLists Addr}
  {free worker : CallKind → List Addr} {index : Nat}

/-- Where the worker is in its loops: behind as many elements as it has kept. -/
def IterationOk (free worker : CallKind → List Addr) (index : Nat)
    (owner : Addr → Option CallKind) : ListsPc Addr → Prop
  | .testFree _ | .splice _ | .testWorker => True
  | .forEach kind n nPrev => AdvancesTo (worker kind) index n nPrev
  | .lookup kind n nPrev | .unlink kind n nPrev => VisitsAt (worker kind) index n nPrev
  | .deinit n nPrev => VisitsAt (worker .list) index n nPrev
  | .freeNode n nPrev =>
      RemovedAt (worker .list) index n nPrev ∧ n ∉ free .list ∧ owner n = some .list
  | .callFunc n nPrev =>
      RemovedAt (worker .hlist) index n nPrev ∧ n ∉ free .hlist ∧ owner n = some .hlist
  | .func n nPrev => RemovedAt (worker .hlist) index n nPrev

/-- The heads and the `next` fields link up four lists of addresses that have
no address in common. -/
structure LinksOk (free worker : CallKind → List Addr) (index : Nat)
    (state : CallLists Addr) : Prop where
  freeChain : ∀ kind, Chain state.next (state.freeList kind) (free kind)
  workerChain : ∀ kind, Chain state.next (state.workerList kind) (worker kind)
  distinct : ∀ kind, (free kind ++ worker kind).Nodup
  owned : ∀ kind, ∀ addr ∈ free kind ++ worker kind, state.owner addr = some kind
  counted : ∀ kind, (free kind ++ worker kind).length ≤ state.registered kind
  iteration : IterationOk free worker index state.owner state.worker

namespace LinksOk

omit [DecidableEq Addr] in
theorem init : LinksOk (fun _ => []) (fun _ => []) 0 (callListsInit : CallLists Addr) where
  freeChain _ := rfl
  workerChain _ := rfl
  distinct _ := List.nodup_nil
  owned _ _ member := by simp at member
  counted _ := Nat.le_refl _
  iteration := trivial

omit [DecidableEq Addr] in
theorem apart (ok : LinksOk free worker index state) {kind kind' : CallKind} {addr : Addr}
    (member : addr ∈ free kind ++ worker kind) (member' : addr ∈ free kind' ++ worker kind') :
    kind = kind' :=
  Option.some.inj ((ok.owned kind addr member).symm.trans (ok.owned kind' addr member'))

omit [DecidableEq Addr] in
theorem move (ok : LinksOk free worker index state) {index' : Nat} {pc : ListsPc Addr}
    (iteration : IterationOk free worker index' state.owner pc) :
    LinksOk free worker index' { state with worker := pc } :=
  { ok with iteration := iteration }

end LinksOk

theorem callQueueStep_eq {kind : CallKind} {e : Addr}
    (stepped : callQueueStep state kind e = some next) :
    state.owner e = none ∧
      next = { state with
        next := Function.update state.next e (state.freeList kind)
        freeList := Function.update state.freeList kind (some e)
        obj := Function.update state.obj e (state.registered kind)
        owner := Function.update state.owner e (some kind)
        registered := Function.update state.registered kind (state.registered kind + 1) } := by
  simp only [callQueueStep, lrcuListInsert_eq, Option.ite_none_right_eq_some,
    Option.some.injEq] at stepped
  obtain ⟨fresh, rfl⟩ := stepped
  refine ⟨fresh, ?_⟩
  cases kind with
  | list => simp only [Function.update_idem]
  | hlist => rfl

namespace LinksOk

omit [DecidableEq Addr] in
theorem fresh (ok : LinksOk free worker index state) {e : Addr} (unused : state.owner e = none)
    (kind : CallKind) : e ∉ free kind ++ worker kind := by
  intro member
  simp [ok.owned kind e member] at unused

private theorem iteration_call {kind : CallKind} {e : Addr} {owner : Addr → Option CallKind}
    {pc : ListsPc Addr} (iteration : IterationOk free worker index owner pc)
    (unused : owner e = none) :
    IterationOk (Function.update free kind (e :: free kind)) worker index
      (Function.update owner e (some kind)) pc := by
  have kept : ∀ {n kind'}, n ∉ free kind' ∧ owner n = some kind' →
      n ∉ Function.update free kind (e :: free kind) kind' ∧
        Function.update owner e (some kind) n = some kind' := by
    rintro n kind' ⟨absent, owned⟩
    have other : n ≠ e := by
      rintro rfl
      simp [owned] at unused
    refine ⟨?_, (Function.update_of_ne other _ _).trans owned⟩
    by_cases same : kind' = kind
    · subst same
      simpa [other] using absent
    · rwa [Function.update_of_ne same]
  cases pc with
  | freeNode | callFunc => exact ⟨iteration.1, kept iteration.2⟩
  | testFree | splice | testWorker | forEach | lookup | deinit | unlink | func =>
      exact iteration

theorem call {kind : CallKind} {e : Addr} (ok : LinksOk free worker index state)
    (stepped : callQueueStep state kind e = some next) :
    LinksOk (Function.update free kind (e :: free kind)) worker index next := by
  obtain ⟨unused, rfl⟩ := callQueueStep_eq stepped
  have fresh := ok.fresh unused
  have other : ∀ {kind' addr}, addr ∈ free kind' ++ worker kind' → addr ≠ e := by
    rintro kind' addr member rfl
    exact fresh kind' member
  constructor
  · intro kind'
    by_cases same : kind' = kind
    · subst same
      simp only [Function.update_self]
      exact (ok.freeChain kind').cons fun member => fresh kind' (List.mem_append_left _ member)
    · simp only [Function.update_of_ne same]
      exact (ok.freeChain kind').congr fun addr member =>
        Function.update_of_ne (other (List.mem_append_left _ member)) _ _
  · intro kind'
    exact (ok.workerChain kind').congr fun addr member =>
      Function.update_of_ne (other (List.mem_append_right _ member)) _ _
  · refine (Function.forall_update_iff free fun kind' addrs =>
      (addrs ++ worker kind').Nodup).mpr ⟨?_, fun kind' _ => ok.distinct kind'⟩
    exact List.nodup_cons.mpr ⟨fresh kind, ok.distinct kind⟩
  · have kept : ∀ kind', ∀ addr ∈ free kind' ++ worker kind',
        Function.update state.owner e (some kind) addr = some kind' := fun kind' addr member =>
      (Function.update_of_ne (other member) _ _).trans (ok.owned kind' addr member)
    refine (Function.forall_update_iff free fun kind' addrs => ∀ addr ∈ addrs ++ worker kind',
      Function.update state.owner e (some kind) addr = some kind').mpr
        ⟨fun addr member => ?_, fun kind' _ => kept kind'⟩
    rcases List.mem_cons.mp member with rfl | member
    · exact Function.update_self _ _ _
    · exact kept kind addr member
  · intro kind'
    have counted := ok.counted kind'
    by_cases same : kind' = kind
    · subst same
      simpa only [Function.update_self, List.cons_append, List.length_cons,
        Nat.add_le_add_iff_right] using counted
    · simpa only [Function.update_of_ne same] using counted
  · exact iteration_call ok.iteration unused

omit [DecidableEq Addr] in
theorem splice_perm (free worker : CallKind → List Addr) (kind kind' : CallKind) :
    (Function.update free kind [] kind' ++
      Function.update worker kind (worker kind ++ free kind) kind').Perm
        (free kind' ++ worker kind') := by
  by_cases same : kind' = kind
  · subst same
    simpa only [Function.update_self, List.nil_append] using List.perm_append_comm
  · rw [Function.update_of_ne same, Function.update_of_ne same]

theorem splice (ok : LinksOk free worker index state) (kind : CallKind) :
    ∃ next' lh', lrcuListSplice state.next (state.registered kind + 1) (state.workerList kind)
        (state.freeList kind) = some (next', lh', none) ∧
      ∀ pc, (∀ free worker index owner, IterationOk free worker index owner pc) →
        LinksOk (Function.update free kind [])
          (Function.update worker kind (worker kind ++ free kind)) index
          { state with
            next := next'
            workerList := Function.update state.workerList kind lh'
            freeList := Function.update state.freeList kind none
            worker := pc } := by
  have enough : (worker kind).length < state.registered kind + 1 := by
    have counted := ok.counted kind
    rw [List.length_append] at counted
    omega
  have swapped := splice_perm free worker kind
  obtain ⟨next', lh', spliced, chain, frame⟩ := lrcuListSplice_spec (ok.workerChain kind)
    (ok.freeChain kind) (List.perm_append_comm.nodup (ok.distinct kind)) enough
  refine ⟨next', lh', spliced, fun pc iteration => ?_⟩
  have outside : ∀ {kind' addr}, kind' ≠ kind → addr ∈ free kind' ++ worker kind' →
      next' addr = state.next addr := fun {kind' addr} other member =>
    frame addr fun inside => other (ok.apart member (List.mem_append_right _ inside))
  constructor
  · intro kind'
    by_cases same : kind' = kind
    · subst same
      simp only [Function.update_self]
      rfl
    · simp only [Function.update_of_ne same]
      exact (ok.freeChain kind').congr fun addr member =>
        outside same (List.mem_append_left _ member)
  · intro kind'
    by_cases same : kind' = kind
    · subst same
      simpa only [Function.update_self] using chain
    · simp only [Function.update_of_ne same]
      exact (ok.workerChain kind').congr fun addr member =>
        outside same (List.mem_append_right _ member)
  · exact fun kind' => (swapped kind').symm.nodup (ok.distinct kind')
  · exact fun kind' addr member => ok.owned kind' addr ((swapped kind').subset member)
  · exact fun kind' => (swapped kind').length_eq.trans_le (ok.counted kind')
  · exact iteration _ _ _ _

/-- The element that the iteration is at leaves the list of the worker. -/
theorem unlink {kind : CallKind} {n : Addr} {nPrev : Option Addr}
    (ok : LinksOk free worker index state)
    (visits : VisitsAt (worker kind) index n nPrev) :
    ∃ next' head', lrcuListUnlinkNext state.next (state.workerList kind) nPrev =
        some (next', head') ∧
      RemovedAt ((worker kind).eraseIdx index) index n nPrev ∧
      ∀ pc, IterationOk free (Function.update worker kind ((worker kind).eraseIdx index)) index
          state.owner pc →
        LinksOk free (Function.update worker kind ((worker kind).eraseIdx index)) index
          { state with
            next := next'
            workerList := Function.update state.workerList kind head'
            worker := pc } := by
  obtain ⟨next', head', unlinked, chain, frame, removed⟩ := lrcuListUnlinkNext_spec
    (ok.workerChain kind) (ok.distinct kind).of_append_right visits
  refine ⟨next', head', unlinked, removed, fun pc iteration => ?_⟩
  have outside : ∀ {kind' addr}, addr ∈ free kind' ++ worker kind' →
      (kind' = kind → addr ∈ free kind') → next' addr = state.next addr := by
    intro kind' addr member inFree
    refine frame addr fun inside => ?_
    obtain rfl := ok.apart member (List.mem_append_right _ inside)
    exact (List.nodup_append.mp (ok.distinct kind')).2.2 addr (inFree rfl) addr inside rfl
  have sublist : ∀ kind', (free kind' ++
      Function.update worker kind ((worker kind).eraseIdx index) kind').Sublist
        (free kind' ++ worker kind') := by
    refine (Function.forall_update_iff worker fun kind' addrs =>
      (free kind' ++ addrs).Sublist (free kind' ++ worker kind')).mpr
        ⟨?_, fun kind' _ => List.Sublist.refl _⟩
    exact (List.eraseIdx_sublist _ _).append_left _
  constructor
  · intro kind'
    exact (ok.freeChain kind').congr fun addr member =>
      outside (List.mem_append_left _ member) fun _ => member
  · intro kind'
    by_cases same : kind' = kind
    · subst same
      simpa only [Function.update_self] using chain
    · simp only [Function.update_of_ne same]
      exact (ok.workerChain kind').congr fun addr member =>
        outside (List.mem_append_right _ member) fun equal => absurd equal same
  · exact fun kind' => (ok.distinct kind').sublist (sublist kind')
  · exact fun kind' addr member => ok.owned kind' addr ((sublist kind').subset member)
  · exact fun kind' => (sublist kind').length_le.trans (ok.counted kind')
  · exact iteration

end LinksOk

end LightRcu
