import LightRcu.InfiniteRuns
import LightRcu.SpinlockSafety

/-!
# Every ticket is served

As long as waiting threads go on spinning and every critical section ends, the
ticket that is to be served next is acquired and released, so that its turn comes
to every ticket.  Nobody who draws a ticket later is served before.
-/

namespace LightRcu

open Execution

variable {Thread : Type*} [DecidableEq Thread] {state next : SpinState Thread}

theorem getElem?_of_prefix {α : Type*} {front whole : List α} (isPrefix : front <+: whole)
    {index : Nat} {value : α} (found : front[index]? = some value) :
    whole[index]? = some value := by
  obtain ⟨rest, rfl⟩ := isPrefix
  rwa [List.getElem?_append_left (List.getElem?_eq_some_iff.mp found).1]

/-! ## One step -/

/-- What a step does to the histories: nothing, an acquisition of the ticket that
is to be served next, an acquisition by a trylock, or a release. -/
inductive TicketMove (state next : SpinState Thread) : SpinAction Thread → Prop
  | alone {action : SpinAction Thread} (acquired : next.acquired = state.acquired)
      (released : next.released = state.released) (others : ∀ t, action ≠ .unlockStore t) :
      TicketMove state next action
  | serve (t : Thread) (free : state.acquired.length = state.released)
      (owned : state.drawn[state.released]? = some t) : TicketMove state next (.lockSpin t)
  | serveFirst (t : Thread) (all : state.drawn.length = state.released) :
      TicketMove state next (.trylockCmpxchg t)
  | release (t : Thread) (owned : state.drawn[state.released]? = some t)
      (acquired : next.acquired = state.acquired)
      (released : next.released = state.released + 1) : TicketMove state next (.unlockStore t)

theorem ticketMove_of_step (invariant : SpinInvariant state) {action : SpinAction Thread}
    (stepped : spinStep state action = some next) : TicketMove state next action := by
  cases action with
  | lockXadd t =>
      simp only [spinStep, Option.ite_none_right_eq_some, Option.some.injEq] at stepped
      obtain ⟨_, rfl⟩ := stepped
      exact .alone rfl rfl (by simp)
  | lockSpin t =>
      simp only [spinStep] at stepped
      split at stepped
      next ticket spins =>
        split_ifs at stepped with served
        · obtain ⟨number, later, owned, same⟩ := invariant.spinning t ticket spins
          have inside := (List.getElem?_eq_some_iff.mp owned).1
          have turn : state.released = number := by
            refine eq_of_ofNat_eq (invariant.served.trans later) (inside.trans invariant.window) ?_
            rw [← invariant.ticket, served, same]
          have free : state.acquired.length = state.released := by
            have := invariant.served
            omega
          obtain rfl := Option.some.inj stepped
          exact .serve t free (turn ▸ owned)
        · obtain rfl := Option.some.inj stepped
          exact .alone rfl rfl (by simp)
      next => simp at stepped
  | trylockLoad t =>
      simp only [spinStep, Option.ite_none_right_eq_some, Option.some.injEq] at stepped
      obtain ⟨_, rfl⟩ := stepped
      exact .alone rfl rfl (by simp)
  | trylockCmpxchg t =>
      simp only [spinStep] at stepped
      split at stepped
      next users tries =>
        rcases lrcuSpinTrylock_cases state.word users with ⟨read, free, swapped⟩ | failed
        · simp only [swapped, if_true, Option.some.injEq] at stepped
          subst stepped
          have unlocked : state.released = state.drawn.length := by
            refine eq_of_ofNat_eq invariant.released_le_drawn invariant.window ?_
            rw [← invariant.ticket, ← invariant.users, read, free]
          exact .serveFirst t unlocked.symm
        · simp only [failed, Nat.one_ne_zero, if_false, Option.some.injEq] at stepped
          subst stepped
          exact .alone rfl rfl (by simp)
      next => simp at stepped
  | unlockLoad t =>
      simp only [spinStep, Option.ite_none_right_eq_some, Option.some.injEq] at stepped
      obtain ⟨_, rfl⟩ := stepped
      exact .alone rfl rfl (by simp)
  | unlockStore t =>
      simp only [spinStep] at stepped
      split at stepped
      next ticket unlocks =>
        obtain ⟨held, _⟩ := invariant.unlocking t ticket unlocks
        obtain rfl := Option.some.inj stepped
        exact .release t (invariant.holder t held).2 rfl rfl
      next => simp at stepped

theorem drawn_grows_of_step {action : SpinAction Thread}
    (stepped : spinStep state action = some next) : state.drawn <+: next.drawn := by
  cases action with
  | lockXadd t =>
      simp only [spinStep, Option.ite_none_right_eq_some, Option.some.injEq] at stepped
      obtain ⟨_, rfl⟩ := stepped
      exact List.prefix_append _ _
  | trylockCmpxchg t =>
      simp only [spinStep] at stepped
      split at stepped
      next users tries =>
        split_ifs at stepped
        · obtain rfl := Option.some.inj stepped
          exact List.prefix_append _ _
        · obtain rfl := Option.some.inj stepped
          exact List.prefix_refl _
      next => simp at stepped
  | lockSpin t =>
      simp only [spinStep] at stepped
      split at stepped
      next =>
        split_ifs at stepped
        · obtain rfl := Option.some.inj stepped
          exact List.prefix_refl _
        · obtain rfl := Option.some.inj stepped
          exact List.prefix_refl _
      next => simp at stepped
  | trylockLoad t =>
      simp only [spinStep, Option.ite_none_right_eq_some, Option.some.injEq] at stepped
      obtain ⟨_, rfl⟩ := stepped
      exact List.prefix_refl _
  | unlockLoad t =>
      simp only [spinStep, Option.ite_none_right_eq_some, Option.some.injEq] at stepped
      obtain ⟨_, rfl⟩ := stepped
      exact List.prefix_refl _
  | unlockStore t =>
      simp only [spinStep] at stepped
      split at stepped
      next => exact Option.some.inj stepped ▸ List.prefix_refl _
      next => simp at stepped

omit [DecidableEq Thread] in
/-- The owner of the ticket that is to be served next spins while nobody holds
the lock, and holds it otherwise. -/
theorem next_owner (invariant : SpinInvariant state) {t : Thread}
    (owned : state.drawn[state.released]? = some t) :
    (state.acquired.length = state.released ∧ ∃ me, (state.thread t).pc = .spinning me) ∨
      state.acquired.length = state.released + 1 ∧ (state.thread t).holds = true := by
  have served := invariant.served
  have turn := invariant.turn
  rcases invariant.owner state.released t le_rfl owned with holds | ⟨me, spins⟩
  · exact Or.inr ⟨(invariant.holder t holds).1, holds⟩
  · obtain ⟨number, later, owned', _⟩ := invariant.spinning t me spins
    have same := invariant.number_unique le_rfl (served.trans later) owned owned'
    exact Or.inl ⟨by omega, me, spins⟩

theorem lockSpin_acquires (invariant : SpinInvariant state) {t : Thread} {me : BitVec 16}
    (owned : state.drawn[state.released]? = some t) (spins : (state.thread t).pc = .spinning me)
    (stepped : spinStep state (.lockSpin t) = some next) :
    (next.thread t).holds = true ∧ next.released = state.released ∧
      next.acquired.length = state.acquired.length + 1 := by
  obtain ⟨number, later, owned', same⟩ := invariant.spinning t me spins
  obtain rfl := invariant.number_unique le_rfl (invariant.served.trans later) owned owned'
  have served : state.word.ticket = me := by rw [invariant.ticket, same]
  simp only [spinStep, spins, served, if_true, Option.some.injEq] at stepped
  subst stepped
  exact ⟨by simp, rfl, by simp⟩

/-! ## Infinite runs -/

/-- A thread that waits for its turn reads the lock word again and again. -/
def SpinsOn (infinite : InfiniteRun (@spinStep Thread _)) : Prop :=
  ∀ t now me, ((infinite.states now).thread t).pc = .spinning me →
    ∃ wait, infinite.actions (now + wait) = .lockSpin t

/-- A thread that holds the lock unlocks it some time. -/
def SectionsEnd (infinite : InfiniteRun (@spinStep Thread _)) : Prop :=
  ∀ t now, ((infinite.states now).thread t).holds = true →
    ∃ wait, infinite.actions (now + wait) = .unlockStore t

/-! A thread is also served when there are moments at which nobody uses the lock. -/

theorem drawn_grows_succ (infinite : InfiniteRun (resting (@spinStep Thread _))) (now : Nat) :
    (infinite.states now).drawn <+: (infinite.states (now + 1)).drawn := by
  rcases infinite.rests_or_steps now with same | ⟨action, _, stepped⟩
  · rw [same]
  · exact drawn_grows_of_step stepped

theorem drawn_grows (infinite : InfiniteRun (resting (@spinStep Thread _))) {start now : Nat}
    (le : start ≤ now) :
    (infinite.states start).drawn <+: (infinite.states now).drawn := by
  induction now, le using Nat.le_induction with
  | base => exact List.prefix_refl _
  | succ now le ih => exact ih.trans (drawn_grows_succ infinite now)

/-- The ticket is the one that is to be served next, after as many
acquisitions. -/
def TurnOf (t : Thread) (released acquired : Nat) (state : SpinState Thread) : Prop :=
  state.released = released ∧ state.acquired.length = acquired ∧
    state.drawn[released]? = some t

omit [DecidableEq Thread] in
theorem TurnOf.grow {t : Thread} {released acquired : Nat}
    (turn : TurnOf t released acquired state) (grown : state.drawn <+: next.drawn)
    (sameReleased : next.released = state.released)
    (sameAcquired : next.acquired = state.acquired) : TurnOf t released acquired next :=
  ⟨sameReleased.trans turn.1, by rw [sameAcquired, turn.2.1], getElem?_of_prefix grown turn.2.2⟩

section Served

variable {infinite : InfiniteRun (resting (@spinStep Thread _))}
  (invariants : ∀ now, SpinInvariant (infinite.states now))
include invariants

theorem next_acquires
    (spins : ∀ t now me, ((infinite.states now).thread t).pc = .spinning me →
      ∃ wait, infinite.actions (now + wait) = some (.lockSpin t))
    {start : Nat} {t : Thread} {released : Nat}
    (turn : TurnOf t released released (infinite.states start)) :
    ∃ later, start ≤ later ∧ ((infinite.states later).thread t).holds = true ∧
      TurnOf t released (released + 1) (infinite.states later) := by
  have spinning : ∀ now, TurnOf t released released (infinite.states now) →
      ∃ me, ((infinite.states now).thread t).pc = .spinning me := by
    rintro now ⟨rfl, acquired, owned⟩
    rcases next_owner (invariants now) owned with ⟨_, spins⟩ | ⟨taken, _⟩
    · exact spins
    · omega
  obtain ⟨me, spinsNow⟩ := spinning start turn
  obtain ⟨wait, reads⟩ := spins t start me spinsNow
  have stays : ∀ now, TurnOf t released released (infinite.states now) →
      infinite.actions now ≠ some (.lockSpin t) →
        TurnOf t released released (infinite.states (now + 1)) := by
    intro now turn others
    obtain ⟨rfl, acquired, owned⟩ := id turn
    rcases infinite.rests_or_steps now with
      same | ⟨action, taken, stepped⟩
    · rwa [same]
    have move := ticketMove_of_step (invariants now) stepped
    have grown := drawn_grows_of_step stepped
    rw [taken] at others
    cases move with
    | alone sameAcquired sameReleased => exact turn.grow grown sameReleased sameAcquired
    | serve t' _ owned' =>
        exact absurd (by rw [Option.some.inj (owned'.symm.trans owned)]) others
    | serveFirst t' all =>
        have inside := (List.getElem?_eq_some_iff.mp owned).1
        omega
    | release t' _ sameAcquired more =>
        have served := (invariants (now + 1)).served
        rw [more, sameAcquired] at served
        omega
  obtain ⟨later, le, turnLater, readsLater⟩ :=
    InfiniteRun.holds_until (· = some (.lockSpin t)) (TurnOf t released released) stays turn reads
  obtain ⟨me', spinsLater⟩ := spinning later turnLater
  have stepped : spinStep (infinite.states later) (.lockSpin t) =
      some (infinite.states (later + 1)) := by
    have stepped := infinite.steps later
    rwa [readsLater] at stepped
  obtain ⟨rfl, acquired, owned⟩ := turnLater
  obtain ⟨holds, same, more⟩ := lockSpin_acquires (invariants later) owned spinsLater stepped
  refine ⟨later + 1, le.trans (Nat.le_succ later), holds, same, by rw [more, acquired], ?_⟩
  exact getElem?_of_prefix (drawn_grows_of_step stepped) owned

theorem next_releases
    (ends : ∀ t now, ((infinite.states now).thread t).holds = true →
      ∃ wait, infinite.actions (now + wait) = some (.unlockStore t))
    {start : Nat} {t : Thread} {released : Nat}
    (turn : TurnOf t released (released + 1) (infinite.states start)) :
    ∃ later, start ≤ later ∧ (infinite.states later).released = released + 1 ∧
      (infinite.states later).acquired.length = released + 1 := by
  have holding : ((infinite.states start).thread t).holds = true := by
    obtain ⟨rfl, acquired, owned⟩ := turn
    rcases next_owner (invariants start) owned with ⟨free, _⟩ | ⟨_, holds⟩
    · omega
    · exact holds
  obtain ⟨wait, stores⟩ := ends t start holding
  have stays : ∀ now, TurnOf t released (released + 1) (infinite.states now) →
      infinite.actions now ≠ some (.unlockStore t) →
        TurnOf t released (released + 1) (infinite.states (now + 1)) := by
    intro now turn others
    obtain ⟨rfl, acquired, owned⟩ := id turn
    rcases infinite.rests_or_steps now with
      same | ⟨action, taken, stepped⟩
    · rwa [same]
    have move := ticketMove_of_step (invariants now) stepped
    have grown := drawn_grows_of_step stepped
    rw [taken] at others
    cases move with
    | alone sameAcquired sameReleased => exact turn.grow grown sameReleased sameAcquired
    | serve t' free => omega
    | serveFirst t' all =>
        have := (invariants now).acquired_le_drawn
        omega
    | release t' owned' =>
        exact absurd (by rw [Option.some.inj (owned'.symm.trans owned)]) others
  obtain ⟨later, le, turnLater, storesLater⟩ :=
    InfiniteRun.holds_until (· = some (.unlockStore t)) (TurnOf t released (released + 1)) stays
      turn stores
  have stepped : spinStep (infinite.states later) (.unlockStore t) =
      some (infinite.states (later + 1)) := by
    have stepped := infinite.steps later
    rwa [storesLater] at stepped
  have move := ticketMove_of_step (invariants later) stepped
  obtain ⟨rfl, acquired, owned⟩ := turnLater
  cases move with
  | alone _ _ others => exact absurd rfl (others t)
  | release _ _ sameAcquired more =>
      exact ⟨later + 1, le.trans (Nat.le_succ later), more, by rw [sameAcquired, acquired]⟩

/-- Its turn comes to every ticket, after as many acquisitions as there are
tickets before it. -/
theorem ticket_served
    (spins : ∀ t now me, ((infinite.states now).thread t).pc = .spinning me →
      ∃ wait, infinite.actions (now + wait) = some (.lockSpin t))
    (ends : ∀ t now, ((infinite.states now).thread t).holds = true →
      ∃ wait, infinite.actions (now + wait) = some (.unlockStore t))
    {start number : Nat} {t : Thread} (owned : (infinite.states start).drawn[number]? = some t)
    (waits : (infinite.states start).acquired.length ≤ number) :
    ∃ later, start ≤ later ∧ ((infinite.states later).thread t).holds = true ∧
      (infinite.states later).acquired.length = number + 1 := by
  -- by induction on the number of tickets that are released before
  induction distance : number - (infinite.states start).released generalizing start with
  | zero =>
      have served := (invariants start).served
      have turn : TurnOf t number number (infinite.states start) :=
        ⟨by omega, by omega, owned⟩
      obtain ⟨later, le, holds, _, acquired, _⟩ := next_acquires invariants spins turn
      exact ⟨later, le, holds, acquired⟩
  | succ distance ih =>
      have served := (invariants start).served
      have most := (invariants start).turn
      have inside := (List.getElem?_eq_some_iff.mp owned).1
      obtain ⟨first, firstOwned⟩ : ∃ first,
          (infinite.states start).drawn[(infinite.states start).released]? = some first :=
        ⟨_, List.getElem?_eq_getElem (by omega)⟩
      obtain ⟨taken, le, turn⟩ : ∃ taken, start ≤ taken ∧
          TurnOf first (infinite.states start).released ((infinite.states start).released + 1)
            (infinite.states taken) := by
        by_cases free : (infinite.states start).acquired.length = (infinite.states start).released
        · obtain ⟨taken, le, _, turn⟩ := next_acquires invariants spins ⟨rfl, free, firstOwned⟩
          exact ⟨taken, le, turn⟩
        · exact ⟨start, le_rfl, rfl, by omega, firstOwned⟩
      obtain ⟨left, le', released, acquired⟩ := next_releases invariants ends turn
      have ownedLeft := getElem?_of_prefix (drawn_grows infinite (le.trans le')) owned
      obtain ⟨later, le'', served⟩ := ih ownedLeft (by omega) (by omega)
      exact ⟨later, by omega, served⟩

end Served

/-- A thread that waits in `lrcu_spin_lock` acquires the lock, and before it only
those do that have drawn their tickets by now. -/
theorem lrcuSpinLock_served {infinite : InfiniteRun (@spinStep Thread _)}
    (begins : infinite.states 0 = spinInit Thread)
    (few : ∀ now, AtMostContend 65535 (infinite.states now)) (spins : SpinsOn infinite)
    (ends : SectionsEnd infinite) {now : Nat} {t : Thread} {me : BitVec 16}
    (waits : ((infinite.states now).thread t).pc = .spinning me) :
    ∃ later, now ≤ later ∧ ((infinite.states later).thread t).holds = true ∧
      (infinite.states later).acquired <+: (infinite.states now).drawn := by
  have invariants : ∀ now, SpinInvariant (infinite.states now) := by
    intro now
    induction now with
    | zero => exact begins ▸ spinInvariant_init
    | succ now ih => exact ih.step_preserves (few (now + 1)) (infinite.steps now)
  obtain ⟨number, ahead, owned, _⟩ := (invariants now).spinning t me waits
  have reads : ∀ t now me, ((infinite.restless.states now).thread t).pc = .spinning me →
      ∃ wait, infinite.restless.actions (now + wait) = some (.lockSpin t) := by
    intro t now me waits
    obtain ⟨wait, reads⟩ := spins t now me waits
    exact ⟨wait, congrArg some reads⟩
  have stores : ∀ t now, ((infinite.restless.states now).thread t).holds = true →
      ∃ wait, infinite.restless.actions (now + wait) = some (.unlockStore t) := by
    intro t now holds
    obtain ⟨wait, stores⟩ := ends t now holds
    exact ⟨wait, congrArg some stores⟩
  obtain ⟨later, le, holds, acquired⟩ : ∃ later, now ≤ later ∧
      ((infinite.states later).thread t).holds = true ∧
        (infinite.states later).acquired.length = number + 1 :=
    ticket_served (fun now => invariants now) reads stores owned ahead
  have inside := (List.getElem?_eq_some_iff.mp owned).1
  refine ⟨later, le, holds, ?_⟩
  have grown := drawn_grows infinite.restless le
  exact List.prefix_of_prefix_length_le (invariants later).inOrder grown (by omega)

/-- Two threads draw tickets and take the lock one after the other. -/
def turnsActions (first second : Thread) : List (SpinAction Thread) :=
  [.lockXadd first, .lockXadd second, .lockSpin first, .unlockLoad first, .unlockStore first,
    .lockSpin second, .unlockLoad second, .unlockStore second]

/-- Nobody is at the lock. -/
def BetweenTurns (state : SpinState (Fin 2)) : Prop :=
  state.word.users = state.word.ticket ∧ ∀ t, state.thread t = ⟨false, .idle, none⟩

theorem run_turnsActions {state : SpinState (Fin 2)} (between : BetweenTurns state) :
    ∃ next, run spinStep state (turnsActions 0 1) = some next ∧ BetweenTurns next := by
  obtain ⟨same, idle⟩ := between
  simp [turnsActions, run, spinStep, idle, lrcuAtomicXaddUsers, same, BetweenTurns,
    Fin.forall_fin_two]

theorem lrcuSpinLock_served_of_turns :
    ∃ infinite : InfiniteRun (@spinStep (Fin 2) _),
      infinite.states 0 = spinInit (Fin 2) ∧
        ((infinite.states 2).thread 1).pc = .spinning 1 ∧
          ∃ later, 2 ≤ later ∧ ((infinite.states later).thread 1).holds = true ∧
            (infinite.states later).acquired <+: (infinite.states 2).drawn := by
  obtain ⟨infinite, begins, listed⟩ := InfiniteRun.exists_of_rounds
    (by decide) (fun _ => run_turnsActions) (show BetweenTurns (spinInit (Fin 2)) from
      ⟨by decide, fun _ => rfl⟩)
  have recurs : ∀ (index : Nat) (action : SpinAction (Fin 2)),
      (turnsActions 0 1)[index]? = some action → ∀ now,
        ∃ wait, infinite.actions (now + wait) = action := by
    intro index action found now
    have inside : index < 8 := (List.getElem?_eq_some_iff.mp found).1
    refine ⟨8 - now % 8 + index, ?_⟩
    have arrives : (now + (8 - now % 8 + index)) % (turnsActions (0 : Fin 2) 1).length = index := by
      change (now + (8 - now % 8 + index)) % 8 = index
      omega
    have there := listed (now + (8 - now % 8 + index))
    rw [arrives, found] at there
    exact (Option.some.inj there).symm
  have second : (infinite.states 2).thread 1 = ⟨false, .spinning 1, none⟩ := by
    have first := infinite.steps 0
    have next := infinite.steps 1
    rw [begins, ← Option.some.inj (listed 0)] at first
    rw [← Option.some.inj (listed 1), ← Option.some.inj first] at next
    rw [← Option.some.inj next]
    rfl
  have waits : ((infinite.states 2).thread 1).pc = .spinning 1 := by rw [second]
  refine ⟨infinite, begins, waits, lrcuSpinLock_served begins ?_ ?_ ?_ waits⟩
  · intro now threads distinct _
    have few : threads.length ≤ 2 := List.Nodup.length_le_card distinct
    omega
  · exact Fin.forall_fin_two.mpr
      ⟨fun now _ _ => recurs 2 _ rfl now, fun now _ _ => recurs 5 _ rfl now⟩
  · exact Fin.forall_fin_two.mpr
      ⟨fun now _ => recurs 4 _ rfl now, fun now _ => recurs 7 _ rfl now⟩

end LightRcu
