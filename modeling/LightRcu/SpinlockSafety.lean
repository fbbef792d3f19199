import LightRcu.Spinlock
import Mathlib.Algebra.Group.Nat.Defs
import Mathlib.Data.Fintype.Card
import Mathlib.Data.List.Nodup
import Mathlib.Data.List.Infix
import Mathlib.Data.List.Perm.Subperm

/-!
# Mutual exclusion and order of the ticket lock

Ticket numbers are drawn without bound, while the lock word keeps them modulo
`2^16`.  As long as fewer than `2^16` tickets are outstanding, the two halves
of the word still tell them apart, however often they have wrapped.
-/

namespace LightRcu

open Execution

/-! ## The halves of the lock word -/

namespace LrcuSpinlock

@[simp]
theorem ticket_append (users ticket : BitVec 16) :
    LrcuSpinlock.ticket (users ++ ticket) = ticket := by
  apply BitVec.eq_of_toNat_eq
  have small := ticket.isLt
  rw [LrcuSpinlock.ticket, BitVec.toNat_setWidth, BitVec.toNat_append,
    ← Nat.shiftLeft_add_eq_or_of_lt small, Nat.shiftLeft_eq]
  omega

@[simp]
theorem users_append (users ticket : BitVec 16) :
    LrcuSpinlock.users (users ++ ticket) = users := by
  apply BitVec.eq_of_toNat_eq
  have small := ticket.isLt
  have small' := users.isLt
  rw [LrcuSpinlock.users, BitVec.toNat_setWidth, BitVec.toNat_ushiftRight,
    BitVec.toNat_append, ← Nat.shiftLeft_add_eq_or_of_lt small, Nat.shiftLeft_eq,
    Nat.shiftRight_eq_div_pow]
  omega

@[simp]
theorem ticket_setTicket (word : LrcuSpinlock) (ticket : BitVec 16) :
    (word.setTicket ticket).ticket = ticket := ticket_append _ _

@[simp]
theorem users_setTicket (word : LrcuSpinlock) (ticket : BitVec 16) :
    (word.setTicket ticket).users = word.users := users_append _ _

@[simp]
theorem ticket_setUsers (word : LrcuSpinlock) (users : BitVec 16) :
    (word.setUsers users).ticket = word.ticket := ticket_append _ _

@[simp]
theorem users_setUsers (word : LrcuSpinlock) (users : BitVec 16) :
    (word.setUsers users).users = users := users_append _ _

end LrcuSpinlock

theorem packWord_eq_append (high low : BitVec 16) : packWord high low = high ++ low := by
  apply BitVec.eq_of_toNat_eq
  have small := low.isLt
  have small' := high.isLt
  rw [packWord, BitVec.toNat_add, BitVec.toNat_shiftLeft, BitVec.toNat_setWidth,
    BitVec.toNat_setWidth, BitVec.toNat_append, ← Nat.shiftLeft_add_eq_or_of_lt small,
    Nat.shiftLeft_eq, Nat.shiftLeft_eq]
  omega

/-- The compare-and-swap takes the lock only when both halves still hold the
value that was read, and leaves the word alone otherwise. -/
theorem lrcuSpinTrylock_cases (word : LrcuSpinlock) (me : BitVec 16) :
    (word.users = me ∧ word.ticket = me ∧
      lrcuSpinTrylock word me = (word.setUsers (me + 1), 0)) ∨
    lrcuSpinTrylock word me = (word, 1) := by
  simp only [lrcuSpinTrylock, lrcuCmpxchg, packWord_eq_append]
  split_ifs with free
  · subst free
    exact Or.inl ⟨LrcuSpinlock.users_append me me, LrcuSpinlock.ticket_append me me, by
      simp [LrcuSpinlock.setUsers]⟩
  · exact Or.inr rfl

/-- Numbers less than `2^16` apart that agree modulo `2^16` are equal. -/
theorem eq_of_ofNat_eq {low high : Nat} (ordered : low ≤ high)
    (window : high < low + 2 ^ 16)
    (same : BitVec.ofNat 16 low = BitVec.ofNat 16 high) : low = high := by
  have residues := congrArg BitVec.toNat same
  simp only [BitVec.toNat_ofNat] at residues
  omega

theorem getElem?_concat_eq_some_iff {α : Type*} {front : List α} {last value : α}
    {index : Nat} :
    (front ++ [last])[index]? = some value ↔
      front[index]? = some value ∨ index = front.length ∧ value = last := by
  rcases lt_trichotomy index front.length with inside | rfl | outside
  · simp [List.getElem?_append_left inside, inside.ne]
  · simp [eq_comm]
  · have beyond : (front ++ [last]).length ≤ index := by
      simpa using Nat.succ_le_of_lt outside
    simp [List.getElem?_eq_none beyond, List.getElem?_eq_none outside.le, outside.ne']

theorem prefix_concat_of_getElem? {α : Type*} {front whole : List α} {next : α}
    (isPrefix : front <+: whole) (follows : whole[front.length]? = some next) :
    front ++ [next] <+: whole := by
  obtain ⟨rest, rfl⟩ := isPrefix
  rw [List.getElem?_append_right (Nat.le_refl _), Nat.sub_self] at follows
  cases rest with
  | nil => simp at follows
  | cons first rest =>
      simp only [List.getElem?_cons_zero, Option.some.injEq] at follows
      subst follows
      exact ⟨rest, by simp⟩

/-! ## The invariant -/

variable {Thread : Type*}

/-- The tickets drawn and not yet released belong to distinct threads, the
first of which may hold the lock while the others spin. -/
structure SpinInvariant (state : SpinState Thread) : Prop where
  users : state.word.users = BitVec.ofNat 16 state.drawn.length
  ticket : state.word.ticket = BitVec.ofNat 16 state.released
  served : state.released ≤ state.acquired.length
  turn : state.acquired.length ≤ state.released + 1
  inOrder : state.acquired <+: state.drawn
  window : state.drawn.length < state.released + 2 ^ 16
  distinct : (state.drawn.drop state.released).Nodup
  owner : ∀ number t, state.released ≤ number → state.drawn[number]? = some t →
    (state.thread t).Contends
  spinning : ∀ t me, (state.thread t).pc = .spinning me →
    ∃ number, state.acquired.length ≤ number ∧ state.drawn[number]? = some t ∧
      me = BitVec.ofNat 16 number
  holder : ∀ t, (state.thread t).holds = true →
    state.acquired.length = state.released + 1 ∧
      state.drawn[state.released]? = some t
  unlocking : ∀ t ticket, (state.thread t).pc = .unlocking ticket →
    (state.thread t).holds = true ∧ ticket = state.word.ticket

theorem spinInvariant_init : SpinInvariant (spinInit Thread) where
  users := show LrcuSpinlock.users 0 = 0 by decide
  ticket := show LrcuSpinlock.ticket 0 = 0 by decide
  served := Nat.le_refl 0
  turn := Nat.zero_le 1
  inOrder := List.prefix_refl []
  window := by simp [spinInit]
  distinct := by simp [spinInit]
  owner := by simp [spinInit]
  spinning := by simp [spinInit]
  holder := by simp [spinInit]
  unlocking := by simp [spinInit]

namespace SpinInvariant

variable {state : SpinState Thread}

theorem acquired_le_drawn (invariant : SpinInvariant state) :
    state.acquired.length ≤ state.drawn.length :=
  invariant.inOrder.length_le

theorem released_le_drawn (invariant : SpinInvariant state) :
    state.released ≤ state.drawn.length :=
  invariant.served.trans invariant.acquired_le_drawn

/-- A ticket number determines its owner among the outstanding tickets. -/
theorem number_unique (invariant : SpinInvariant state) {first second : Nat} {t : Thread}
    (low : state.released ≤ first) (low' : state.released ≤ second)
    (owned : state.drawn[first]? = some t) (owned' : state.drawn[second]? = some t) :
    first = second := by
  have shifted : ∀ number, state.released ≤ number →
      (state.drawn.drop state.released)[number - state.released]? = state.drawn[number]? := by
    intro number bound
    rw [List.getElem?_drop, Nat.add_sub_cancel' bound]
  have inside : first - state.released < (state.drawn.drop state.released).length := by
    have := (List.getElem?_eq_some_iff.mp owned).1
    rw [List.length_drop]
    omega
  have equal := (List.getElem?_inj inside invariant.distinct).mp
    ((shifted first low).trans (owned.trans (owned'.symm.trans (shifted second low').symm)))
  omega

/-- The owners of outstanding tickets are distinct threads that contend, so
that a bound on such threads bounds the tickets. -/
theorem drawn_le_of_atMostContend {limit released : Nat} {drawn : List Thread}
    {thread : Thread → SpinThread} (distinct : (drawn.drop released).Nodup)
    (owner : ∀ number t, released ≤ number → drawn[number]? = some t →
      (thread t).Contends)
    (bounded : ∀ threads : List Thread, threads.Nodup →
      (∀ t ∈ threads, (thread t).Contends) → threads.length ≤ limit) :
    drawn.length ≤ released + limit := by
  have few := bounded (drawn.drop released) distinct fun t member => by
    obtain ⟨index, inside, rfl⟩ := List.mem_iff_getElem.mp member
    have within : released + index < drawn.length := by
      rw [List.length_drop] at inside
      omega
    rw [List.getElem_drop]
    exact owner (released + index) _ (Nat.le_add_right _ _)
      (List.getElem?_eq_getElem within)
  rw [List.length_drop] at few
  omega

/-! ## One step -/

variable [DecidableEq Thread]

/-- A thread that does not spin may change what it does next without touching
the lock. -/
private theorem keep_of_update (invariant : SpinInvariant state) {t : Thread}
    {after : SpinThread} (holds : after.holds = (state.thread t).holds)
    (quiet : ∀ me, (state.thread t).pc ≠ .spinning me)
    (quiet' : ∀ me, after.pc ≠ .spinning me)
    (unlocks : ∀ ticket, after.pc = .unlocking ticket →
      after.holds = true ∧ ticket = state.word.ticket) :
    SpinInvariant { state with thread := Function.update state.thread t after } where
  users := invariant.users
  ticket := invariant.ticket
  served := invariant.served
  turn := invariant.turn
  inOrder := invariant.inOrder
  window := invariant.window
  distinct := invariant.distinct
  owner := by
    intro number other low owned
    have contends := invariant.owner number other low owned
    rcases eq_or_ne other t with rfl | different
    · rcases contends with held | ⟨me, spins⟩
      · exact Or.inl (by simpa [holds] using held)
      · exact absurd spins (quiet me)
    · simpa [SpinThread.Contends, different] using contends
  spinning := by
    intro other me spins
    rcases eq_or_ne other t with rfl | different
    · exact absurd (by simpa using spins) (quiet' me)
    · exact invariant.spinning other me (by simpa [different] using spins)
  holder := by
    intro other held
    rcases eq_or_ne other t with rfl | different
    · exact invariant.holder other (by simpa [holds] using held)
    · exact invariant.holder other (by simpa [different] using held)
  unlocking := by
    intro other ticket pc
    rcases eq_or_ne other t with rfl | different
    · simpa using unlocks ticket (by simpa using pc)
    · simpa [different] using invariant.unlocking other ticket (by simpa [different] using pc)

/-- A thread that does not unlock leaves those that do with the ticket that they
have read. -/
private theorem unlocking_of_update (invariant : SpinInvariant state) {t : Thread}
    {after : SpinThread} {word : LrcuSpinlock} (same : word.ticket = state.word.ticket)
    (quiet : ∀ ticket, after.pc ≠ .unlocking ticket) (other : Thread) (ticket : BitVec 16)
    (pc : (Function.update state.thread t after other).pc = .unlocking ticket) :
    (Function.update state.thread t after other).holds = true ∧ ticket = word.ticket := by
  rcases eq_or_ne other t with rfl | different
  · exact absurd (by simpa using pc) (quiet ticket)
  · rw [Function.update_of_ne different] at pc ⊢
    rw [same]
    exact invariant.unlocking other ticket pc

private theorem lockXadd_preserves (invariant : SpinInvariant state) {t : Thread}
    {next : SpinState Thread} (few : AtMostContend (2 ^ 16 - 1) next)
    (stepped : spinStep state (.lockXadd t) = some next) : SpinInvariant next := by
  simp only [spinStep, lrcuAtomicXaddUsers, Option.ite_none_right_eq_some,
    Option.some.injEq] at stepped
  obtain ⟨⟨idle, free⟩, rfl⟩ := stepped
  have silent : ¬ (state.thread t).Contends := by
    simp [SpinThread.Contends, idle, free]
  have distinct : ((state.drawn ++ [t]).drop state.released).Nodup := by
    rw [List.drop_append_of_le_length invariant.released_le_drawn]
    refine invariant.distinct.append (List.nodup_singleton t) ?_
    intro other member same
    obtain rfl := List.mem_singleton.mp same
    obtain ⟨index, owned⟩ := List.getElem?_of_mem member
    rw [List.getElem?_drop] at owned
    exact silent (invariant.owner _ other (Nat.le_add_right _ _) owned)
  have owner : ∀ number other, state.released ≤ number →
      (state.drawn ++ [t])[number]? = some other →
      (Function.update state.thread t
        { state.thread t with pc := .spinning state.word.users } other).Contends := by
    intro number other low owned
    rcases eq_or_ne other t with rfl | different
    · exact Or.inr ⟨state.word.users, by simp⟩
    · rw [Function.update_of_ne different]
      rcases getElem?_concat_eq_some_iff.mp owned with old | ⟨_, last⟩
      · exact invariant.owner number other low old
      · exact absurd last different
  exact {
    users := by
      simp only [LrcuSpinlock.users_setUsers, invariant.users, List.length_append,
        List.length_singleton, BitVec.ofNat_add,
        BitVec.ofNat_eq_ofNat]
    ticket := by simpa using invariant.ticket
    served := invariant.served
    turn := invariant.turn
    inOrder := invariant.inOrder.trans (List.prefix_append _ _)
    window := by
      have bound := drawn_le_of_atMostContend distinct owner few
      change (state.drawn ++ [t]).length < state.released + 2 ^ 16
      omega
    distinct := distinct
    owner := owner
    spinning := by
      intro other me spins
      rcases eq_or_ne other t with rfl | different
      · refine ⟨state.drawn.length, invariant.acquired_le_drawn, by simp, ?_⟩
        simp only [Function.update_self, SpinPc.spinning.injEq] at spins
        exact spins.symm.trans invariant.users
      · obtain ⟨number, later, owned, same⟩ :=
          invariant.spinning other me (by simpa [different] using spins)
        refine ⟨number, later, ?_, same⟩
        exact getElem?_concat_eq_some_iff.mpr (Or.inl owned)
    holder := by
      intro other held
      rcases eq_or_ne other t with rfl | different
      · simp [free] at held
      · obtain ⟨taken, owned⟩ := invariant.holder other (by simpa [different] using held)
        exact ⟨taken, getElem?_concat_eq_some_iff.mpr (Or.inl owned)⟩
    unlocking := invariant.unlocking_of_update (by simp) (by simp) }

private theorem lockSpin_preserves (invariant : SpinInvariant state) {t : Thread}
    {next : SpinState Thread} (stepped : spinStep state (.lockSpin t) = some next) :
    SpinInvariant next := by
  simp only [spinStep] at stepped
  split at stepped
  next ticket spins =>
    split_ifs at stepped with served
    · obtain rfl := Option.some.inj stepped
      obtain ⟨number, later, owned, same⟩ := invariant.spinning t ticket spins
      have inside := (List.getElem?_eq_some_iff.mp owned).1
      have turn : state.released = number := by
        refine eq_of_ofNat_eq (invariant.served.trans later)
          (inside.trans invariant.window) ?_
        rw [← invariant.ticket, served, same]
      have nextTurn : state.acquired.length = state.released := by
        have := invariant.served
        omega
      subst turn
      exact {
        users := invariant.users
        ticket := invariant.ticket
        served := by simpa using invariant.served.trans (Nat.le_succ _)
        turn := by simp [nextTurn]
        inOrder := prefix_concat_of_getElem? invariant.inOrder (nextTurn ▸ owned)
        window := invariant.window
        distinct := invariant.distinct
        owner := by
          intro number other low owned'
          rcases eq_or_ne other t with rfl | different
          · exact Or.inl (by simp)
          · simpa [SpinThread.Contends, different] using
              invariant.owner number other low owned'
        spinning := by
          intro other me spins'
          rcases eq_or_ne other t with rfl | different
          · simp at spins'
          · obtain ⟨number, later', owned', same'⟩ :=
              invariant.spinning other me (by simpa [different] using spins')
            refine ⟨number, ?_, owned', same'⟩
            have another : number ≠ state.released := by
              rintro rfl
              exact different (Option.some.inj (owned'.symm.trans owned))
            simp only [List.length_append, List.length_singleton]
            omega
        holder := by
          intro other held
          rcases eq_or_ne other t with rfl | different
          · exact ⟨by simp [nextTurn], owned⟩
          · have := (invariant.holder other (by simpa [different] using held)).1
            omega
        unlocking := invariant.unlocking_of_update (by simp) (by simp) }
    · exact Option.some.inj stepped ▸ invariant
  next => simp at stepped

private theorem trylockLoad_preserves (invariant : SpinInvariant state) {t : Thread}
    {next : SpinState Thread} (stepped : spinStep state (.trylockLoad t) = some next) :
    SpinInvariant next := by
  simp only [spinStep, Option.ite_none_right_eq_some, Option.some.injEq] at stepped
  obtain ⟨idle, rfl⟩ := stepped
  exact invariant.keep_of_update rfl (by simp [idle]) (by simp) (by simp)

private theorem trylockCmpxchg_preserves (invariant : SpinInvariant state) {t : Thread}
    {next : SpinState Thread}
    (stepped : spinStep state (.trylockCmpxchg t) = some next) :
    SpinInvariant next := by
  simp only [spinStep] at stepped
  split at stepped
  next users tries =>
    rcases lrcuSpinTrylock_cases state.word users with ⟨read, free, swapped⟩ | failed
    · simp only [swapped, if_true, Option.some.injEq] at stepped
      subst stepped
      have unlocked : state.released = state.drawn.length := by
        refine eq_of_ofNat_eq invariant.released_le_drawn invariant.window ?_
        rw [← invariant.ticket, ← invariant.users, read, free]
      have everyone : state.acquired.length = state.drawn.length := by
        have := invariant.served
        have := invariant.acquired_le_drawn
        omega
      have whole : state.acquired = state.drawn :=
        invariant.inOrder.eq_of_length everyone
      have last : ∀ number other, state.released ≤ number →
          (state.drawn ++ [t])[number]? = some other → other = t := by
        intro number other low owned
        rcases getElem?_concat_eq_some_iff.mp owned with old | ⟨_, last⟩
        · have := (List.getElem?_eq_some_iff.mp old).1
          omega
        · exact last
      exact {
        users := by
          simp only [LrcuSpinlock.users_setUsers, ← read, invariant.users,
            List.length_append, List.length_singleton, BitVec.ofNat_add,
        BitVec.ofNat_eq_ofNat]
        ticket := by simpa using invariant.ticket
        served := by simpa using invariant.served.trans (Nat.le_succ _)
        turn := by simp [everyone, unlocked]
        inOrder := by simp [whole]
        window := by simp [unlocked]
        distinct := by simp [unlocked]
        owner := by
          intro number other low owned
          obtain rfl := last number other low owned
          exact Or.inl (by simp)
        spinning := by
          intro other me spins
          rcases eq_or_ne other t with rfl | different
          · simp at spins
          · obtain ⟨number, later, owned, _⟩ :=
              invariant.spinning other me (by simpa [different] using spins)
            have := (List.getElem?_eq_some_iff.mp owned).1
            omega
        holder := by
          intro other held
          rcases eq_or_ne other t with rfl | different
          · exact ⟨by simp [everyone, unlocked], by simp [unlocked]⟩
          · have := (invariant.holder other (by simpa [different] using held)).1
            omega
        unlocking := invariant.unlocking_of_update (by simp) (by simp) }
    · simp only [failed, Nat.one_ne_zero, if_false, Option.some.injEq] at stepped
      subst stepped
      exact invariant.keep_of_update rfl (by simp [tries]) (by simp) (by simp)
  next => simp at stepped

private theorem unlockLoad_preserves (invariant : SpinInvariant state) {t : Thread}
    {next : SpinState Thread} (stepped : spinStep state (.unlockLoad t) = some next) :
    SpinInvariant next := by
  simp only [spinStep, Option.ite_none_right_eq_some, Option.some.injEq] at stepped
  obtain ⟨⟨idle, held⟩, rfl⟩ := stepped
  refine invariant.keep_of_update rfl (by simp [idle]) (by simp) ?_
  intro ticket pc
  exact ⟨held, (SpinPc.unlocking.inj pc).symm⟩

private theorem unlockStore_preserves (invariant : SpinInvariant state) {t : Thread}
    {next : SpinState Thread} (stepped : spinStep state (.unlockStore t) = some next) :
    SpinInvariant next := by
  simp only [spinStep] at stepped
  split at stepped
  next ticket unlocks =>
    obtain rfl := Option.some.inj stepped
    obtain ⟨held, loaded⟩ := invariant.unlocking t ticket unlocks
    obtain ⟨taken, owned⟩ := invariant.holder t held
    have alone : ∀ other, (state.thread other).holds = true → other = t := by
      intro other held'
      exact Option.some.inj ((invariant.holder other held').2.symm.trans owned)
    exact {
      users := by simpa using invariant.users
      ticket := by
        simp only [LrcuSpinlock.ticket_setTicket, loaded, invariant.ticket,
          BitVec.ofNat_add, BitVec.ofNat_eq_ofNat]
      served := by simp [taken]
      turn := by simp [taken]
      inOrder := invariant.inOrder
      window := by
        have := invariant.window
        change state.drawn.length < state.released + 1 + 2 ^ 16
        omega
      distinct := invariant.distinct.sublist
        (List.drop_sublist_drop_left state.drawn (Nat.le_succ state.released))
      owner := by
        intro number other low owned'
        have low' : state.released + 1 ≤ number := low
        rcases eq_or_ne other t with rfl | different
        · have := invariant.number_unique (Nat.le_refl _) (Nat.le_of_succ_le low') owned owned'
          omega
        · simpa [SpinThread.Contends, different] using
            invariant.owner number other (Nat.le_of_succ_le low') owned'
      spinning := by
        intro other me spins
        rcases eq_or_ne other t with rfl | different
        · simp at spins
        · exact invariant.spinning other me (by simpa [different] using spins)
      holder := by
        intro other held'
        rcases eq_or_ne other t with rfl | different
        · simp at held'
        · exact absurd (alone other (by simpa [different] using held')) different
      unlocking := by
        intro other ticket' pc
        rcases eq_or_ne other t with rfl | different
        · simp at pc
        · have := invariant.unlocking other ticket' (by simpa [different] using pc)
          exact absurd (alone other this.1) different }
  next => simp at stepped

/-- The step rule: an access that leaves at most `2^16 - 1` threads at the lock
keeps the invariant. -/
theorem step_preserves (invariant : SpinInvariant state) {action : SpinAction Thread}
    {next : SpinState Thread} (few : AtMostContend (2 ^ 16 - 1) next)
    (stepped : spinStep state action = some next) : SpinInvariant next := by
  cases action with
  | lockXadd t => exact invariant.lockXadd_preserves few stepped
  | lockSpin t => exact invariant.lockSpin_preserves stepped
  | trylockLoad t => exact invariant.trylockLoad_preserves stepped
  | trylockCmpxchg t => exact invariant.trylockCmpxchg_preserves stepped
  | unlockLoad t => exact invariant.unlockLoad_preserves stepped
  | unlockStore t => exact invariant.unlockStore_preserves stepped

end SpinInvariant

/-! ## Whole runs -/

variable [DecidableEq Thread]

theorem spinInvariant_of_run {actions : List (SpinAction Thread)}
    {state : SpinState Thread}
    (ran : run spinStep (spinInit Thread) actions = some state)
    (few : Throughout spinStep (AtMostContend (2 ^ 16 - 1)) (spinInit Thread) actions) :
    SpinInvariant state :=
  run_preserves_of_throughout SpinInvariant
    (fun _ _ _ invariant bounded stepped => invariant.step_preserves bounded stepped)
    few spinInvariant_init ran

/-- A failed attempt leaves the lock word as it was. -/
theorem word_eq_of_trylock_failed {state next : SpinState Thread} {t : Thread}
    (stepped : spinStep state (.trylockCmpxchg t) = some next)
    (failed : (next.thread t).result = some 1) : next.word = state.word := by
  simp only [spinStep] at stepped
  split at stepped
  next users _ =>
    rcases lrcuSpinTrylock_cases state.word users with ⟨_, _, swapped⟩ | unchanged
    · simp only [swapped, if_true, Option.some.injEq] at stepped
      subst stepped
      simp at failed
    · simp only [unchanged, Nat.one_ne_zero, if_false, Option.some.injEq] at stepped
      subst stepped
      rfl
  next => simp at stepped

/-- In every run with at most 65535 contending threads, however often the two
halves of the word have wrapped, one thread holds the lock at a time, the
tickets are served in the order in which they were drawn, and a
`lrcu_spin_trylock` that returns `1` leaves the word unchanged. -/
theorem lrcuSpinlock_exclusive_and_ordered {actions : List (SpinAction Thread)}
    {state : SpinState Thread}
    (ran : run spinStep (spinInit Thread) actions = some state)
    (few : Throughout spinStep (AtMostContend 65535) (spinInit Thread) actions) :
    (∀ first second, (state.thread first).holds = true →
        (state.thread second).holds = true → first = second) ∧
      state.acquired <+: state.drawn ∧
        ∀ t next, spinStep state (.trylockCmpxchg t) = some next →
          (next.thread t).result = some 1 → next.word = state.word := by
  have invariant := spinInvariant_of_run ran few
  refine ⟨?_, invariant.inOrder, fun t next => word_eq_of_trylock_failed⟩
  intro first second held held'
  have owned := (invariant.holder first held).2
  have owned' := (invariant.holder second held').2
  exact Option.some.inj (owned.symm.trans owned')

/-- Two threads draw tickets, a third one tries the lock in vain, and the
second ticket is served after the first. -/
def contendedActions : List (SpinAction (Fin 3)) :=
  [.lockXadd 0, .lockXadd 1, .lockSpin 0, .trylockLoad 2, .trylockCmpxchg 2,
    .unlockLoad 0, .unlockStore 0, .lockSpin 1, .trylockLoad 2]

theorem lrcuSpinlock_exclusive_and_ordered_of_three :
    ∃ state, run spinStep (spinInit (Fin 3)) contendedActions = some state ∧
      (∀ first second, (state.thread first).holds = true →
          (state.thread second).holds = true → first = second) ∧
        state.acquired <+: state.drawn ∧
          ∀ t next, spinStep state (.trylockCmpxchg t) = some next →
            (next.thread t).result = some 1 → next.word = state.word := by
  obtain ⟨state, ran⟩ : ∃ state,
      run spinStep (spinInit (Fin 3)) contendedActions = some state := ⟨_, rfl⟩
  refine ⟨state, ran, lrcuSpinlock_exclusive_and_ordered ran ?_⟩
  intro _ _ _ _ _ threads distinct _
  have few : threads.length ≤ 3 := List.Nodup.length_le_card distinct
  omega

end LightRcu
