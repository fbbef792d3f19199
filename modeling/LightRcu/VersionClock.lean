import LightRcu.Execution
import Mathlib.Algebra.Group.Nat.Defs
import Mathlib.Data.List.Induction
import Mathlib.Logic.Function.Basic
import Mathlib.Order.Nat

/-!
# The version of a namespace as a clock

Every `ns->version++` is a load followed by a store.  The writers of a namespace
exclude each other by `write_lock`, but `lrcu_write_barrier_ns`, the two pointer
assignments and the worker increment the same field without that lock.  The
clock is exact in just those runs in which no store of one increment falls
between the load and the store of another.
-/

namespace LightRcu

open Execution

/-- The `u8` index of a namespace. -/
abbrev NsId := Nat

/-- The fields of `struct lrcu_ptr` that `lrcu_assign_ptr` uses: its namespace
and the cell `ptr->ptr`. -/
structure LrcuPtr where
  nsId : NsId
  ptr : Nat

/-- The worker thread, or a thread of the user. -/
inductive Agent (Thread : Type*)
  | worker
  | thread (t : Thread)
  deriving DecidableEq

/-- The store `*pp = newptr` that follows the write barrier of an assignment. -/
abbrev Assignment := Option (Nat × Nat)

/-- Where an agent is in a function that increments the version. -/
inductive ClockPc
  | idle
  | incrementing (nsId : NsId) (after : Assignment)
  | loaded (nsId : NsId) (value : Nat) (after : Assignment)
  | assigning (pp newptr : Nat)
  deriving DecidableEq

structure ClockState (Thread : Type*) where
  version : NsId → Nat
  writeLock : NsId → Option Thread
  /-- The pointer variables that readers dereference. -/
  shared : Nat → Nat
  pc : Agent Thread → ClockPc
  /-- The number of increments of each namespace that are complete. -/
  increments : NsId → Nat

/-- One entry into a function of the interface, or one access to memory. -/
inductive ClockAction (Thread : Type*)
  | lrcuWriteLockNs (t : Thread) (nsId : NsId)
  | lrcuWriteUnlockNs (t : Thread) (nsId : NsId)
  | lrcuWriteBarrierNs (agent : Agent Thread) (nsId : NsId)
  | lrcuAssignPointerNs (t : Thread) (nsId : NsId) (pp newptr : Nat)
  | lrcuAssignPtr (t : Thread) (ptr : LrcuPtr) (newptr : Nat)
  | load (agent : Agent Thread) (nsId : NsId)
  | store (agent : Agent Thread) (nsId : NsId)
  | assign (t : Thread)

variable {Thread : Type*} [DecidableEq Thread]

/-- `lrcu_ns_init` sets the version of a namespace to `1`. -/
def clockInit (Thread : Type*) : ClockState Thread where
  version := fun _ => 1
  writeLock := fun _ => none
  shared := fun _ => 0
  pc := fun _ => .idle
  increments := fun _ => 0

def ClockState.setPc (state : ClockState Thread) (agent : Agent Thread)
    (pc : ClockPc) : ClockState Thread :=
  { state with pc := Function.update state.pc agent pc }

/-- The entry of a function that begins with `ns->version++`. -/
def ClockState.begin (state : ClockState Thread) (agent : Agent Thread)
    (nsId : NsId) (after : Assignment) : Option (ClockState Thread) :=
  if state.pc agent = .idle then some (state.setPc agent (.incrementing nsId after))
  else none

def clockStep (state : ClockState Thread) :
    ClockAction Thread → Option (ClockState Thread)
  | .lrcuWriteLockNs t nsId =>
      -- `lrcu_spin_lock` returns to the thread that finds the lock free.
      if state.writeLock nsId = none then
        { state with writeLock := Function.update state.writeLock nsId (some t) }.begin
          (.thread t) nsId none
      else none
  | .lrcuWriteUnlockNs t nsId =>
      if state.writeLock nsId = some t ∧ state.pc (.thread t) = .idle then
        some { state with writeLock := Function.update state.writeLock nsId none }
      else none
  | .lrcuWriteBarrierNs agent nsId => state.begin agent nsId none
  | .lrcuAssignPointerNs t nsId pp newptr => state.begin (.thread t) nsId (some (pp, newptr))
  | .lrcuAssignPtr t ptr newptr => state.begin (.thread t) ptr.nsId (some (ptr.ptr, newptr))
  | .load agent nsId =>
      match state.pc agent with
      | .incrementing id after =>
          if id = nsId then some (state.setPc agent (.loaded nsId (state.version nsId) after))
          else none
      | _ => none
  | .store agent nsId =>
      match state.pc agent with
      | .loaded id value after =>
          if id = nsId then
            some { state.setPc agent (after.elim .idle fun a => .assigning a.1 a.2) with
              version := Function.update state.version nsId ((value + 1) % 2 ^ 64)
              increments := Function.update state.increments nsId
                (state.increments nsId + 1) }
          else none
      | _ => none
  | .assign t =>
      match state.pc (.thread t) with
      | .assigning pp newptr =>
          some { state.setPc (.thread t) .idle with
            shared := Function.update state.shared pp newptr }
      | _ => none

/-! ## What a step does to the clock -/

variable {state next : ClockState Thread}

/-- What a step does, with what it requires.  The functions that begin with an
increment all enter it the same way. -/
inductive ClockMove (state : ClockState Thread) :
    ClockAction Thread → ClockState Thread → Prop
  | enter (action : ClockAction Thread) (agent : Agent Thread) (nsId : NsId)
      (after : Assignment) (writeLock : NsId → Option Thread) (idle : state.pc agent = .idle)
      (enters : ∀ agent nsId, action ≠ .store agent nsId) :
      ClockMove state action
        ({ state with writeLock := writeLock }.setPc agent (.incrementing nsId after))
  | lrcuWriteUnlockNs (t : Thread) (nsId : NsId) (writeLock : NsId → Option Thread) :
      ClockMove state (.lrcuWriteUnlockNs t nsId) { state with writeLock := writeLock }
  | load (agent : Agent Thread) (nsId : NsId) (after : Assignment)
      (entered : state.pc agent = .incrementing nsId after) :
      ClockMove state (.load agent nsId)
        (state.setPc agent (.loaded nsId (state.version nsId) after))
  | store (agent : Agent Thread) (nsId : NsId) (value : Nat) (after : Assignment)
      (pending : state.pc agent = .loaded nsId value after) :
      ClockMove state (.store agent nsId)
        { state.setPc agent (after.elim .idle fun a => .assigning a.1 a.2) with
          version := Function.update state.version nsId ((value + 1) % 2 ^ 64)
          increments := Function.update state.increments nsId (state.increments nsId + 1) }
  | assign (t : Thread) (pp newptr : Nat)
      (assigning : state.pc (.thread t) = .assigning pp newptr) :
      ClockMove state (.assign t)
        { state.setPc (.thread t) .idle with
          shared := Function.update state.shared pp newptr }

private theorem clockMove_of_begin {action : ClockAction Thread} {agent : Agent Thread}
    {nsId : NsId} {after : Assignment}
    (begun : state.begin agent nsId after = some next)
    (enters : ∀ agent nsId, action ≠ .store agent nsId) : ClockMove state action next := by
  simp only [ClockState.begin, Option.ite_none_right_eq_some, Option.some.injEq] at begun
  obtain ⟨idle, rfl⟩ := begun
  exact .enter action agent nsId after state.writeLock idle enters

theorem clockMove_of_step {action : ClockAction Thread}
    (stepped : clockStep state action = some next) : ClockMove state action next := by
  cases action with
  | lrcuWriteLockNs t nsId =>
      simp only [clockStep, ClockState.begin, Option.ite_none_right_eq_some,
        Option.some.injEq] at stepped
      obtain ⟨_, idle, rfl⟩ := stepped
      exact .enter _ (.thread t) nsId none _ idle (by simp)
  | lrcuWriteUnlockNs t nsId =>
      simp only [clockStep, Option.ite_none_right_eq_some, Option.some.injEq] at stepped
      obtain ⟨_, rfl⟩ := stepped
      exact .lrcuWriteUnlockNs t nsId _
  | lrcuWriteBarrierNs agent nsId => exact clockMove_of_begin stepped (by simp)
  | lrcuAssignPointerNs t nsId pp newptr => exact clockMove_of_begin stepped (by simp)
  | lrcuAssignPtr t ptr newptr => exact clockMove_of_begin stepped (by simp)
  | load agent nsId =>
      simp only [clockStep] at stepped
      split at stepped
      next id after entered =>
        split_ifs at stepped with same
        obtain rfl := Option.some.inj stepped
        exact .load agent nsId after (same ▸ entered)
      next => simp at stepped
  | store agent nsId =>
      simp only [clockStep] at stepped
      split at stepped
      next id value after pending =>
        split_ifs at stepped with same
        obtain rfl := Option.some.inj stepped
        exact .store agent nsId value after (same ▸ pending)
      next => simp at stepped
  | assign t =>
      simp only [clockStep] at stepped
      split at stepped
      next pp newptr assigning =>
        obtain rfl := Option.some.inj stepped
        exact .assign t pp newptr assigning
      next => simp at stepped

private theorem resumed_ne_loaded (after : Assignment) (nsId : NsId) (value : Nat)
    (after' : Assignment) :
    after.elim ClockPc.idle (fun a => .assigning a.1 a.2) ≠ .loaded nsId value after' := by
  cases after <;> simp

private theorem loaded_of_setPc {agent other : Agent Thread} {pc pc' : ClockPc}
    (loaded : (state.setPc agent pc).pc other = pc') (different : pc ≠ pc') :
    other ≠ agent ∧ state.pc other = pc' := by
  rcases eq_or_ne other agent with rfl | apart
  · exact absurd (by simpa [ClockState.setPc] using loaded) different
  · exact ⟨apart, by simpa [ClockState.setPc, apart] using loaded⟩

/-- The clock of a namespace stands still in a step, and no increment of it is
newly loaded. -/
structure ClockStill (nsId : NsId) (state next : ClockState Thread) : Prop where
  version : next.version nsId = state.version nsId
  increments : next.increments nsId = state.increments nsId
  pending : ∀ agent value after, next.pc agent = .loaded nsId value after →
    state.pc agent = .loaded nsId value after

theorem clockStep_cases {action : ClockAction Thread}
    (stepped : clockStep state action = some next) (nsId : NsId) :
    (∃ agent after, action = .load agent nsId ∧
      next = state.setPc agent (.loaded nsId (state.version nsId) after)) ∨
    (∃ agent value after, action = .store agent nsId ∧
      state.pc agent = .loaded nsId value after ∧
      next.version nsId = (value + 1) % 2 ^ 64 ∧
      next.increments nsId = state.increments nsId + 1 ∧
      ∀ other value' after', next.pc other = .loaded nsId value' after' →
        other ≠ agent ∧ state.pc other = .loaded nsId value' after') ∨
    (∀ agent, action ≠ .store agent nsId) ∧ ClockStill nsId state next := by
  cases clockMove_of_step stepped with
  | enter _ agent id after writeLock idle enters =>
      refine Or.inr (Or.inr ⟨fun agent => enters agent nsId, rfl, rfl, fun _ _ _ loaded => ?_⟩)
      exact (loaded_of_setPc loaded (by simp)).2
  | lrcuWriteUnlockNs t id writeLock =>
      exact Or.inr (Or.inr ⟨by simp, rfl, rfl, fun _ _ _ loaded => loaded⟩)
  | load agent id after entered =>
      rcases eq_or_ne id nsId with rfl | elsewhere
      · exact Or.inl ⟨agent, after, rfl, rfl⟩
      · refine Or.inr (Or.inr ⟨by simp, rfl, rfl, fun _ _ _ loaded => ?_⟩)
        exact (loaded_of_setPc loaded (by simp [elsewhere])).2
  | store agent id value after pending =>
      rcases eq_or_ne id nsId with rfl | elsewhere
      · refine Or.inr (Or.inl ⟨agent, value, after, rfl, pending, by simp, by simp, ?_⟩)
        intro other value' after' loaded
        exact loaded_of_setPc loaded (resumed_ne_loaded after id value' after')
      · refine Or.inr (Or.inr ⟨by simp [elsewhere], ?_, ?_, ?_⟩)
        · exact Function.update_of_ne elsewhere.symm _ _
        · exact Function.update_of_ne elsewhere.symm _ _
        · intro other value' after' loaded
          exact (loaded_of_setPc loaded (resumed_ne_loaded after nsId value' after')).2
  | assign t pp newptr assigning =>
      refine Or.inr (Or.inr ⟨by simp, rfl, rfl, fun _ _ _ loaded => ?_⟩)
      exact (loaded_of_setPc loaded (by simp)).2

theorem loaded_of_step {action : ClockAction Thread} {agent : Agent Thread}
    {nsId : NsId} {value : Nat} {after : Assignment}
    (pending : state.pc agent = .loaded nsId value after)
    (stepped : clockStep state action = some next) (others : action ≠ .store agent nsId) :
    next.pc agent = .loaded nsId value after := by
  have kept : ∀ {other : Agent Thread} {pc : ClockPc}, other ≠ agent →
      (state.setPc other pc).pc agent = .loaded nsId value after := by
    intro other pc apart
    simpa [ClockState.setPc, apart.symm] using pending
  have apart : ∀ {other : Agent Thread} {pc : ClockPc}, state.pc other = pc →
      pc ≠ .loaded nsId value after → other ≠ agent := by
    rintro other pc its different rfl
    exact different (its.symm.trans pending)
  cases clockMove_of_step stepped with
  | enter _ other id after' writeLock idle enters => exact kept (apart idle (by simp))
  | lrcuWriteUnlockNs t id writeLock => exact pending
  | load other id after' entered => exact kept (apart entered (by simp))
  | store other id value' after' waiting =>
      refine kept ?_
      rintro rfl
      obtain ⟨rfl, -, -⟩ := ClockPc.loaded.inj (waiting.symm.trans pending)
      exact others rfl
  | assign t pp newptr assigning => exact kept (apart assigning (by simp))

theorem increments_le_of_step {action : ClockAction Thread}
    (stepped : clockStep state action = some next) (nsId : NsId) :
    state.increments nsId ≤ next.increments nsId := by
  rcases clockStep_cases stepped nsId with ⟨_, _, _, rfl⟩ | stores | ⟨_, still⟩
  · exact Nat.le_refl _
  · obtain ⟨_, _, _, _, _, _, increments, _⟩ := stores
    omega
  · exact still.increments.ge

theorem version_lt_of_step {action : ClockAction Thread} {nsId : NsId}
    (small : state.version nsId < 2 ^ 64)
    (stepped : clockStep state action = some next) : next.version nsId < 2 ^ 64 := by
  rcases clockStep_cases stepped nsId with ⟨_, _, _, rfl⟩ | stores | ⟨_, still⟩
  · exact small
  · obtain ⟨_, _, _, _, _, version, _⟩ := stores
    rw [version]
    exact Nat.mod_lt _ (by decide)
  · exact still.version ▸ small

/-! ## Whole runs -/

/-- No store of an increment of the version falls between the load and the
store of another increment of it. -/
def Undisturbed (nsId : NsId) (actions : List (ClockAction Thread)) : Prop :=
  ∀ agent other front between back,
    actions = front ++ .load agent nsId :: (between ++ .store agent nsId :: back) →
      .store agent nsId ∉ between → .store other nsId ∉ between

/-- In a run from the initial state the version never decreases, and in every
state it has grown by the number of complete increments. -/
def ClockExact (nsId : NsId) (actions : List (ClockAction Thread)) : Prop :=
  (∀ front action back middle next, actions = front ++ action :: back →
    run clockStep (clockInit Thread) front = some middle →
      clockStep middle action = some next →
        middle.version nsId ≤ next.version nsId) ∧
  Throughout clockStep
    (fun state => state.version nsId =
      (clockInit Thread).version nsId + state.increments nsId)
    (clockInit Thread) actions

omit [DecidableEq Thread] in
theorem Undisturbed.front {nsId : NsId} {first second : List (ClockAction Thread)}
    (undisturbed : Undisturbed nsId (first ++ second)) : Undisturbed nsId first := by
  intro agent other front between back split
  refine undisturbed agent other front between (back ++ second) ?_
  simp [split]

variable {actions : List (ClockAction Thread)}

theorem increments_le_of_run (ran : run clockStep state actions = some next)
    (nsId : NsId) : state.increments nsId ≤ next.increments nsId :=
  run_preserves (fun later => state.increments nsId ≤ later.increments nsId)
    (fun _ _ _ grown stepped => grown.trans (increments_le_of_step stepped nsId))
    (Nat.le_refl _) ran

theorem version_lt_of_run (ran : run clockStep (clockInit Thread) actions = some state)
    (nsId : NsId) :
    state.version nsId < 2 ^ 64 :=
  run_preserves (fun later => later.version nsId < 2 ^ 64)
    (fun _ _ _ small stepped => version_lt_of_step small stepped)
    (by change 1 < 2 ^ 64; decide) ran

theorem loaded_of_run {agent : Agent Thread} {nsId : NsId} {value : Nat}
    {after : Assignment} (pending : state.pc agent = .loaded nsId value after)
    (ran : run clockStep state actions = some next)
    (others : .store agent nsId ∉ actions) :
    next.pc agent = .loaded nsId value after := by
  induction actions generalizing state with
  | nil =>
      simp only [run_nil, Option.some.injEq] at ran
      exact ran ▸ pending
  | cons action rest ih =>
      obtain ⟨middle, stepped, ran⟩ := run_cons_eq_some_iff.mp ran
      obtain ⟨first, later⟩ := not_or.mp (List.mem_cons.not.mp others)
      exact ih (loaded_of_step pending stepped (Ne.symm first)) ran later

/-- While stores are undisturbed the clock is exact, and an increment that no
store has overtaken holds the current version. -/
private theorem clock_of_undisturbed {nsId : NsId}
    (ran : run clockStep (clockInit Thread) actions = some state)
    (undisturbed : Undisturbed nsId actions)
    (bounded : 1 + state.increments nsId < 2 ^ 64) :
    state.version nsId = 1 + state.increments nsId ∧
      ∀ agent value after, state.pc agent = .loaded nsId value after →
        ∃ front between, actions = front ++ .load agent nsId :: between ∧
          .store agent nsId ∉ between ∧
            ((∀ other, .store other nsId ∉ between) → value = state.version nsId) := by
  induction actions using List.reverseRecOn generalizing state with
  | nil =>
      simp only [run_nil, Option.some.injEq] at ran
      subst ran
      exact ⟨rfl, fun _ _ _ loaded => by simp [clockInit] at loaded⟩
  | append_singleton earlier action ih =>
      obtain ⟨middle, before, stepped⟩ := run_concat_eq_some_iff.mp ran
      have grown := increments_le_of_step stepped nsId
      obtain ⟨exact, pending⟩ := ih before undisturbed.front (by omega)
      rcases clockStep_cases stepped nsId with ⟨agent, after, rfl, rfl⟩ | stores | ⟨silent, still⟩
      · refine ⟨exact, fun other value after' loaded => ?_⟩
        rcases eq_or_ne other agent with rfl | apart
        · refine ⟨earlier, [], rfl, by simp, fun _ => ?_⟩
          simp only [ClockState.setPc, Function.update_self, ClockPc.loaded.injEq] at loaded
          exact loaded.2.1.symm
        · obtain ⟨front, between, split, notMine, fresh⟩ :=
            pending other value after' (by simpa [ClockState.setPc, apart] using loaded)
          refine ⟨front, between ++ [.load agent nsId], by simp [split], by simpa, ?_⟩
          intro untouched
          exact fresh fun store member => untouched store (List.mem_append_left _ member)
      · obtain ⟨agent, value, after, rfl, mine, version, increments, rest⟩ := stores
        obtain ⟨front, between, split, notMine, fresh⟩ := pending agent value after mine
        have current : value = middle.version nsId := by
          refine fresh fun other => undisturbed agent other front between [] ?_ notMine
          simp [split]
        refine ⟨?_, fun other value' after' loaded => ?_⟩
        · rw [version, increments, Nat.mod_eq_of_lt (by omega)]
          omega
        · obtain ⟨apart, loaded⟩ := rest other value' after' loaded
          obtain ⟨front', between', split', notMine', _⟩ := pending other value' after' loaded
          refine ⟨front', between' ++ [.store agent nsId], by simp [split'], ?_, ?_⟩
          · simpa [notMine'] using apart
          · intro untouched
            exact absurd (by simp) (untouched agent)
      · refine ⟨by rw [still.version, still.increments, exact], ?_⟩
        intro agent value after loaded
        obtain ⟨front, between, split, notMine, fresh⟩ :=
          pending agent value after (still.pending agent value after loaded)
        refine ⟨front, between ++ [action], by simp [split], ?_, ?_⟩
        · simpa [notMine] using (silent agent).symm
        · intro untouched
          rw [still.version]
          exact fresh fun store member => untouched store (List.mem_append_left _ member)

/-- A store that overtakes another increment is lost when that one stores. -/
private theorem undisturbed_of_throughout {nsId : NsId}
    (ran : run clockStep (clockInit Thread) actions = some state)
    (exact : Throughout clockStep
      (fun state => state.version nsId = 1 + state.increments nsId)
      (clockInit Thread) actions) : Undisturbed nsId actions := by
  intro agent other front between back split notMine disturbed
  subst split
  obtain ⟨first, ranFront, ran⟩ := Option.bind_eq_some_iff.mp ((run_append _ _ _).symm.trans ran)
  obtain ⟨second, loads, ran⟩ := run_cons_eq_some_iff.mp ran
  obtain ⟨third, ranBetween, ran⟩ := Option.bind_eq_some_iff.mp ((run_append _ _ _).symm.trans ran)
  obtain ⟨fourth, stores, _⟩ := run_cons_eq_some_iff.mp ran
  have exactFirst : first.version nsId = 1 + first.increments nsId :=
    exact front _ first rfl ranFront
  have exactFourth : fourth.version nsId = 1 + fourth.increments nsId := by
    refine exact (front ++ .load agent nsId :: (between ++ [.store agent nsId])) back fourth
      (by simp) ?_
    rw [run_append, ranFront]
    refine run_cons_eq_some_iff.mpr ⟨second, loads, ?_⟩
    exact run_concat_eq_some_iff.mpr ⟨third, ranBetween, stores⟩
  obtain ⟨after, rfl⟩ : ∃ after,
      second = first.setPc agent (.loaded nsId (first.version nsId) after) := by
    rcases clockStep_cases loads nsId with ⟨_, after, same, rfl⟩ | stores | ⟨silent, still⟩
    · obtain ⟨rfl, _⟩ := ClockAction.load.inj same
      exact ⟨after, rfl⟩
    · obtain ⟨_, _, _, same, _⟩ := stores
      exact absurd same (by simp)
    · simp only [clockStep] at loads
      split at loads
      · split_ifs at loads
        exact ⟨_, (Option.some.inj loads).symm⟩
      · simp at loads
  have waiting : third.pc agent = .loaded nsId (first.version nsId) after :=
    loaded_of_run (by simp [ClockState.setPc]) ranBetween notMine
  have overtaken : first.increments nsId + 1 ≤ third.increments nsId := by
    obtain ⟨early, late, rfl⟩ := List.append_of_mem disturbed
    obtain ⟨before, ranEarly, ranLate⟩ :=
      Option.bind_eq_some_iff.mp ((run_append _ _ _).symm.trans ranBetween)
    obtain ⟨between, stepped, ranLate⟩ := run_cons_eq_some_iff.mp ranLate
    have grownEarly := increments_le_of_run ranEarly nsId
    have grownLate := increments_le_of_run ranLate nsId
    rcases clockStep_cases stepped nsId with ⟨_, _, same, _⟩ | stored | ⟨silent, _⟩
    · simp at same
    · obtain ⟨_, _, _, _, _, _, increments, _⟩ := stored
      change first.increments nsId ≤ _ at grownEarly
      omega
    · exact absurd rfl (silent other)
  rcases clockStep_cases stores nsId with ⟨_, _, same, _⟩ | stored | ⟨silent, _⟩
  · simp at same
  · obtain ⟨_, value, _, same, loaded, version, increments, _⟩ := stored
    obtain ⟨rfl, _⟩ := ClockAction.store.inj same
    obtain ⟨_, rfl, _⟩ := ClockPc.loaded.inj (loaded.symm.trans waiting)
    have := Nat.mod_le (first.version nsId + 1) (2 ^ 64)
    omega
  · exact absurd rfl (silent agent)

/-- The clock of a namespace is exact in just those runs in which no store
overtakes another increment and the version does not wrap. -/
theorem clockExact_iff (ran : run clockStep (clockInit Thread) actions = some state)
    (nsId : NsId) :
    ClockExact nsId actions ↔
      Undisturbed nsId actions ∧ 1 + state.increments nsId < 2 ^ 64 := by
  constructor
  · rintro ⟨_, exact⟩
    refine ⟨undisturbed_of_throughout ran exact, ?_⟩
    have last := exact actions [] state (by simp) ran
    have small := version_lt_of_run ran nsId
    rw [last] at small
    exact small
  · rintro ⟨undisturbed, bounded⟩
    have exact : ∀ front back middle, actions = front ++ back →
        run clockStep (clockInit Thread) front = some middle →
          middle.version nsId = 1 + middle.increments nsId := by
      rintro front back middle rfl ranFront
      rw [run_append, ranFront] at ran
      have grown := increments_le_of_run ran nsId
      exact (clock_of_undisturbed ranFront undisturbed.front (by omega)).1
    refine ⟨?_, exact⟩
    intro front action back middle next split ranFront stepped
    have before := exact front (action :: back) middle split ranFront
    have after := exact (front ++ [action]) back next (by simpa using split)
      (run_concat_eq_some_iff.mpr ⟨middle, ranFront, stepped⟩)
    have grown := increments_le_of_step stepped nsId
    omega

/-- A writer locks and assigns a pointer one after the other. -/
theorem clockExact_iff_of_writer :
    ∃ state, run clockStep (clockInit (Fin 1))
        [.lrcuWriteLockNs 0 0, .load (.thread 0) 0, .store (.thread 0) 0,
          .lrcuAssignPointerNs 0 0 5 7, .load (.thread 0) 0, .store (.thread 0) 0,
          .assign 0, .lrcuWriteUnlockNs 0 0] = some state ∧
      (@ClockExact (Fin 1) _ 0
          [.lrcuWriteLockNs 0 0, .load (.thread 0) 0, .store (.thread 0) 0,
            .lrcuAssignPointerNs 0 0 5 7, .load (.thread 0) 0, .store (.thread 0) 0,
            .assign 0, .lrcuWriteUnlockNs 0 0] ↔
        @Undisturbed (Fin 1) 0
          [.lrcuWriteLockNs 0 0, .load (.thread 0) 0, .store (.thread 0) 0,
            .lrcuAssignPointerNs 0 0 5 7, .load (.thread 0) 0, .store (.thread 0) 0,
            .assign 0, .lrcuWriteUnlockNs 0 0] ∧ 1 + state.increments 0 < 2 ^ 64) :=
  ⟨_, rfl, clockExact_iff rfl 0⟩

/-- The worker loads version `1`, a writer locks and assigns a pointer, and
the store of the worker takes the version back from `3` to `2`. -/
theorem clockExact_fails_of_worker :
    ¬ ∀ (actions : List (ClockAction (Fin 1))) (state : ClockState (Fin 1)) (nsId : NsId),
      run clockStep (clockInit (Fin 1)) actions = some state →
        state.increments nsId < 2 ^ 64 → ClockExact nsId actions := by
  intro exact
  have monotone := (exact
    [.lrcuWriteBarrierNs .worker 0, .load .worker 0,
      .lrcuWriteLockNs 0 0, .load (.thread 0) 0, .store (.thread 0) 0,
      .lrcuAssignPointerNs 0 0 5 7, .load (.thread 0) 0, .store (.thread 0) 0,
      .store .worker 0] _ 0 rfl (by decide)).1
  have decreased : 3 ≤ 2 := monotone
    [.lrcuWriteBarrierNs .worker 0, .load .worker 0,
      .lrcuWriteLockNs 0 0, .load (.thread 0) 0, .store (.thread 0) 0,
      .lrcuAssignPointerNs 0 0 5 7, .load (.thread 0) 0, .store (.thread 0) 0]
    (.store .worker 0) [] _ _ rfl rfl rfl
  exact absurd decreased (by decide)

end LightRcu
