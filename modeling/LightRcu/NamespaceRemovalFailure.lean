import LightRcu.NamespaceRemoval

/-!
# Removal of a namespace never succeeds

Both functions that remove a namespace clear `h->ns[id]` under `ns_lock` and
then call `lrcu_write_barrier_ns(id)`, which loads that pointer again and
asserts that it is not `NULL`.  No other agent changes the pointers while the
lock is held, so no call returns, whatever else happens in between.
-/

namespace LightRcu

open Execution

variable {Thread : Type*} [DecidableEq Thread]

/-! ## The pointers change under the lock only -/

/-- The code goes on inside a section that holds `ns_lock`. -/
def NeedsLock : List Instr → Bool
  | [] => false
  | .lockNsLock :: _ => false
  | .unlockNsLock :: _ => true
  | .installNs _ :: _ => true
  | .clearNs _ :: _ => true
  | _ :: rest => NeedsLock rest

/-- What follows an unlock does not need the lock. -/
def UnlocksLast : List Instr → Bool
  | [] => true
  | .unlockNsLock :: rest => !NeedsLock rest && UnlocksLast rest
  | _ :: rest => UnlocksLast rest

def HandlerWorkerPc.InReclaim : HandlerWorkerPc → Bool
  | .reclaim _ _ => true
  | _ => false

/-- Whoever is in a section that holds the lock holds it. -/
structure LockedTables (state : HandlerState Thread) : Prop where
  threads : ∀ t, NeedsLock (state.thread t).code = true →
    state.nsLock = some (.thread t)
  unlocks : ∀ t, UnlocksLast (state.thread t).code = true
  worker : state.worker.InReclaim = true → state.nsLock = some .worker

variable {state next : HandlerState Thread}

omit [DecidableEq Thread] in
theorem access_cases {address : Nat} {use : LrcuNamespace → Option (HandlerState Thread)}
    (accessed : state.access address use = some next) :
    next = state.fail ∨ ∃ found, state.heap address = some found ∧ use found = some next := by
  unfold HandlerState.access at accessed
  split at accessed
  next found present => exact Or.inr ⟨found, present, accessed⟩
  next => exact Or.inl (Option.some.inj accessed).symm

/-- An instruction that does not fail moves its thread on.  It changes the
lock as its name says, and the pointers only inside a locked section. -/
theorem execute_cases {t : Thread} {rest : List Instr} {instr : Instr}
    (executed : execute state t rest instr = some next) :
    next = state.fail ∨
      (∃ after : HandlerThread, after.code = rest ∧
        next.thread = Function.update state.thread t after) ∧
      next.failed = state.failed ∧ next.worker = state.worker ∧
      ((instr = .lockNsLock ∧ state.nsLock = none ∧ next.nsLock = some (.thread t) ∧
          next.ns = state.ns) ∨
        (instr = .unlockNsLock ∧ next.nsLock = none ∧ next.ns = state.ns) ∨
        (∃ id, (instr = .installNs id ∨
            instr = .clearNs id ∧ next.ns = Function.update state.ns id none) ∧
          next.nsLock = state.nsLock) ∨
        (NeedsLock (instr :: rest) = NeedsLock rest ∧
          UnlocksLast (instr :: rest) = UnlocksLast rest ∧
          next.nsLock = state.nsLock ∧ next.ns = state.ns)) := by
  cases instr with
  | lockNsLock =>
      simp only [execute, Option.ite_none_right_eq_some, Option.some.injEq] at executed
      obtain ⟨free, rfl⟩ := executed
      exact Or.inr ⟨⟨_, rfl, rfl⟩, rfl, rfl, Or.inl ⟨rfl, free, rfl, rfl⟩⟩
  | unlockNsLock =>
      obtain rfl := Option.some.inj executed
      exact Or.inr ⟨⟨_, rfl, rfl⟩, rfl, rfl, Or.inr (Or.inl ⟨rfl, rfl, rfl⟩)⟩
  | loadNs id =>
      simp only [execute] at executed
      split at executed
      · obtain rfl := Option.some.inj executed
        exact Or.inr ⟨⟨_, rfl, rfl⟩, rfl, rfl, Or.inr (Or.inr (Or.inr ⟨rfl, rfl, rfl, rfl⟩))⟩
      · exact Or.inl (Option.some.inj executed).symm
  | assertNoNs id =>
      simp only [execute] at executed
      split_ifs at executed
      · obtain rfl := Option.some.inj executed
        exact Or.inr ⟨⟨_, rfl, rfl⟩, rfl, rfl, Or.inr (Or.inr (Or.inr ⟨rfl, rfl, rfl, rfl⟩))⟩
      · exact Or.inl (Option.some.inj executed).symm
  | installNs id =>
      simp only [execute] at executed
      split at executed
      all_goals
        obtain rfl := Option.some.inj executed
        exact Or.inr ⟨⟨_, rfl, rfl⟩, rfl, rfl, Or.inr (Or.inr (Or.inl ⟨id, Or.inl rfl, rfl⟩))⟩
  | installWorkerNs id =>
      obtain rfl := Option.some.inj executed
      exact Or.inr ⟨⟨_, rfl, rfl⟩, rfl, rfl, Or.inr (Or.inr (Or.inr ⟨rfl, rfl, rfl, rfl⟩))⟩
  | clearNs id =>
      obtain rfl := Option.some.inj executed
      exact Or.inr ⟨⟨_, rfl, rfl⟩, rfl, rfl,
        Or.inr (Or.inr (Or.inl ⟨id, Or.inr ⟨rfl, rfl⟩, rfl⟩))⟩
  | clearWorkerNs id =>
      obtain rfl := Option.some.inj executed
      exact Or.inr ⟨⟨_, rfl, rfl⟩, rfl, rfl, Or.inr (Or.inr (Or.inr ⟨rfl, rfl, rfl, rfl⟩))⟩
  | bumpVersion =>
      rcases access_cases executed with failed | ⟨found, _, used⟩
      · exact Or.inl failed
      · obtain rfl := Option.some.inj used
        exact Or.inr ⟨⟨_, rfl, rfl⟩, rfl, rfl, Or.inr (Or.inr (Or.inr ⟨rfl, rfl, rfl, rfl⟩))⟩
  | loadVersion =>
      rcases access_cases executed with failed | ⟨found, _, used⟩
      · exact Or.inl failed
      · obtain rfl := Option.some.inj used
        exact Or.inr ⟨⟨_, rfl, rfl⟩, rfl, rfl, Or.inr (Or.inr (Or.inr ⟨rfl, rfl, rfl, rfl⟩))⟩
  | waitSynchronized =>
      rcases access_cases executed with failed | ⟨found, _, used⟩
      · exact Or.inl failed
      · simp only [Option.ite_none_right_eq_some, Option.some.injEq] at used
        obtain ⟨_, rfl⟩ := used
        exact Or.inr ⟨⟨_, rfl, rfl⟩, rfl, rfl, Or.inr (Or.inr (Or.inr ⟨rfl, rfl, rfl, rfl⟩))⟩
  | waitProcessed =>
      rcases access_cases executed with failed | ⟨found, _, used⟩
      · exact Or.inl failed
      · simp only [Option.ite_none_right_eq_some, Option.some.injEq] at used
        obtain ⟨_, rfl⟩ := used
        exact Or.inr ⟨⟨_, rfl, rfl⟩, rfl, rfl, Or.inr (Or.inr (Or.inr ⟨rfl, rfl, rfl, rfl⟩))⟩
  | destructWorkerNs id =>
      simp only [execute] at executed
      split at executed
      · exact Or.inl (Option.some.inj executed).symm
      · rcases access_cases executed with failed | ⟨found, _, used⟩
        · exact Or.inl failed
        · obtain rfl := Option.some.inj used
          exact Or.inr ⟨⟨_, rfl, rfl⟩, rfl, rfl,
            Or.inr (Or.inr (Or.inr ⟨rfl, rfl, rfl, rfl⟩))⟩

omit [DecidableEq Thread] in
/-- A step of the worker leaves the pointers of the users and the other agents
alone, and takes and releases the lock around the reclamation. -/
theorem handlerWorkerStep_cases {nsMax destroyed processedVersion : Nat}
    (stepped : handlerWorkerStep nsMax state destroyed processedVersion = some next) :
    next = state.fail ∨
      next.ns = state.ns ∧ next.thread = state.thread ∧ next.failed = state.failed ∧
      ((next.nsLock = state.nsLock ∧ next.worker.InReclaim = false) ∨
        (state.nsLock = none ∧ next.nsLock = some .worker) ∨
        (state.worker.InReclaim = true ∧ next.nsLock = none ∧
          next.worker.InReclaim = false)) := by
  unfold handlerWorkerStep at stepped
  cases pc : state.worker with
  | scan i =>
      simp only [pc] at stepped
      split at stepped
      all_goals
        obtain rfl := Option.some.inj stepped
        exact Or.inr ⟨rfl, rfl, rfl, Or.inl ⟨rfl, rfl⟩⟩
  | callbacks i ns =>
      simp only [pc] at stepped
      rcases access_cases stepped with failed | ⟨found, _, used⟩
      · exact Or.inl failed
      · obtain rfl := Option.some.inj used
        exact Or.inr ⟨rfl, rfl, rfl, Or.inl ⟨rfl, rfl⟩⟩
  | reclaimTest i ns =>
      simp only [pc] at stepped
      rcases access_cases stepped with failed | ⟨found, _, used⟩
      · exact Or.inl failed
      · split_ifs at used
        all_goals
          obtain rfl := Option.some.inj used
          exact Or.inr ⟨rfl, rfl, rfl, Or.inl ⟨rfl, rfl⟩⟩
  | reclaimLock i ns =>
      simp only [pc, Option.ite_none_right_eq_some, Option.some.injEq] at stepped
      obtain ⟨free, rfl⟩ := stepped
      exact Or.inr ⟨rfl, rfl, rfl, Or.inr (Or.inl ⟨free, rfl⟩)⟩
  | reclaim i ns =>
      simp only [pc] at stepped
      rcases access_cases stepped with failed | ⟨found, _, used⟩
      · exact Or.inl failed
      · split at used
        · split at used
          all_goals
            obtain rfl := Option.some.inj used
            exact Or.inr ⟨rfl, rfl, rfl, Or.inr (Or.inr ⟨rfl, rfl, rfl⟩)⟩
        · obtain rfl := Option.some.inj used
          exact Or.inr ⟨rfl, rfl, rfl, Or.inr (Or.inr ⟨rfl, rfl, rfl⟩)⟩
  | writeBarrier i ns =>
      simp only [pc] at stepped
      split at stepped
      · obtain rfl := Option.some.inj stepped
        exact Or.inr ⟨rfl, rfl, rfl, Or.inl ⟨rfl, rfl⟩⟩
      · exact Or.inl (Option.some.inj stepped).symm
  | bump i ns target =>
      simp only [pc] at stepped
      rcases access_cases stepped with failed | ⟨found, _, used⟩
      · exact Or.inl failed
      · obtain rfl := Option.some.inj used
        exact Or.inr ⟨rfl, rfl, rfl, Or.inl ⟨rfl, rfl⟩⟩
  | processed i ns =>
      simp only [pc] at stepped
      rcases access_cases stepped with failed | ⟨found, _, used⟩
      · exact Or.inl failed
      · split_ifs at used
        all_goals
          obtain rfl := Option.some.inj used
          exact Or.inr ⟨rfl, rfl, rfl, Or.inl ⟨rfl, rfl⟩⟩

omit [DecidableEq Thread] in
/-- After a step of one thread, the rule is checked for that thread, and nobody
else has lost the lock. -/
private theorem LockedTables.of_resumed (tables : LockedTables state) (t : Thread)
    (needs : NeedsLock (next.thread t).code = true → next.nsLock = some (.thread t))
    (unlocks : UnlocksLast (next.thread t).code = true)
    (others : ∀ u, u ≠ t → next.thread u = state.thread u)
    (kept : ∀ agent, agent ≠ .thread t → state.nsLock = some agent → next.nsLock = some agent)
    (worker : next.worker = state.worker) : LockedTables next where
  threads u needs' := by
    rcases eq_or_ne u t with rfl | other
    · exact needs needs'
    · rw [others u other] at needs'
      exact kept _ (by simpa using other) (tables.threads u needs')
  unlocks u := by
    rcases eq_or_ne u t with rfl | other
    · exact unlocks
    · rw [others u other]
      exact tables.unlocks u
  worker inside := kept _ (by simp) (tables.worker (worker ▸ inside))

private theorem LockedTables.execute {t : Thread} {instr : Instr} {rest : List Instr}
    (tables : LockedTables state) (code : (state.thread t).code = instr :: rest)
    (executed : execute state t rest instr = some next) :
    next.failed = true ∨ LockedTables next := by
  rcases execute_cases executed with rfl | ⟨⟨after, resumed, thread⟩, _, worker, effect⟩
  · exact Or.inl rfl
  have others : ∀ u, u ≠ t → next.thread u = state.thread u := by
    intro u other
    rw [thread, Function.update_of_ne other]
  have resumes : (next.thread t).code = rest := by
    rw [thread, Function.update_self, resumed]
  have before := tables.threads t
  have unlocks := tables.unlocks t
  rw [code] at before unlocks
  right
  rcases effect with ⟨rfl, free, taken, _⟩ | ⟨rfl, released, _⟩ | ⟨id, writes, kept⟩ |
    ⟨same, sameUnlocks, kept, _⟩
  · refine tables.of_resumed t (fun _ => taken) (resumes ▸ unlocks) others ?_ worker
    intro agent _ held
    simp [free] at held
  · simp only [UnlocksLast, Bool.and_eq_true, Bool.not_eq_true'] at unlocks
    refine tables.of_resumed t (fun needs => ?_) (resumes ▸ unlocks.2) others ?_ worker
    · rw [resumes, unlocks.1] at needs
      exact absurd needs (by simp)
    · intro agent other held
      exact absurd (Option.some.inj (held.symm.trans (before rfl))) other
  · have held : state.nsLock = some (.thread t) := by
      rcases writes with rfl | ⟨rfl, _⟩
      · exact before rfl
      · exact before rfl
    have unlocksRest : UnlocksLast rest = true := by
      rcases writes with rfl | ⟨rfl, _⟩
      · exact unlocks
      · exact unlocks
    exact tables.of_resumed t (fun _ => kept.trans held) (resumes ▸ unlocksRest) others
      (fun _ _ => kept.trans) worker
  · exact tables.of_resumed t (fun needs => kept.trans (before (same.trans (resumes ▸ needs))))
      (resumes ▸ sameUnlocks ▸ unlocks) others (fun _ _ => kept.trans) worker

theorem LockedTables.step {nsMax : Nat} {action : HandlerAction Thread}
    (tables : LockedTables state) (stepped : handlerStep nsMax state action = some next) :
    next.failed = true ∨ LockedTables next := by
  cases action with
  | call t function =>
      simp only [handlerStep, Option.ite_none_right_eq_some, Option.some.injEq] at stepped
      obtain ⟨_, rfl⟩ := stepped
      have entered : NeedsLock function.code = false ∧ UnlocksLast function.code = true := by
        cases function <;> exact ⟨rfl, rfl⟩
      refine Or.inr (tables.of_resumed t (fun needs => ?_) ?_ (fun u other => ?_)
        (fun _ _ => id) rfl)
      · simp [HandlerState.setThread, entered.1] at needs
      · simpa [HandlerState.setThread] using entered.2
      · exact Function.update_of_ne other _ _
  | thread t =>
      simp only [handlerStep] at stepped
      split_ifs at stepped
      split at stepped
      next => simp at stepped
      next instr rest code => exact tables.execute code stepped
  | worker destroyed processedVersion =>
      simp only [handlerStep] at stepped
      split_ifs at stepped
      rcases handlerWorkerStep_cases stepped with rfl | ⟨_, thread, _, effect⟩
      · exact Or.inl rfl
      refine Or.inr ⟨fun u needs => ?_, fun u => thread ▸ tables.unlocks u, fun inside => ?_⟩
      · have held := tables.threads u (thread ▸ needs)
        rcases effect with ⟨kept, _⟩ | ⟨free, _⟩ | ⟨reclaims, _⟩
        · exact kept.trans held
        · exact absurd held (by simp [free])
        · exact absurd ((tables.worker reclaims).symm.trans held) (by simp)
      · rcases effect with ⟨_, outside⟩ | ⟨_, taken⟩ | ⟨_, _, outside⟩
        · exact absurd inside (by simp [outside])
        · exact taken
        · exact absurd inside (by simp [outside])
  | users ns threads calls =>
      simp only [handlerStep] at stepped
      split_ifs at stepped
      split at stepped
      next => simp at stepped
      next =>
        obtain rfl := Option.some.inj stepped
        exact Or.inr ⟨tables.threads, tables.unlocks, tables.worker⟩

omit [DecidableEq Thread] in
theorem lockedTables_init : LockedTables (handlerInit Thread) where
  threads _ needs := by simp [handlerInit, NeedsLock] at needs
  unlocks _ := rfl
  worker inside := by simp [handlerInit, HandlerWorkerPc.InReclaim] at inside

/-- While a thread holds the lock, the others change neither the lock nor the
pointers of the users. -/
theorem LockedTables.frame {nsMax : Nat} {action : HandlerAction Thread} {t : Thread}
    (tables : LockedTables state) (held : state.nsLock = some (.thread t))
    (busy : (state.thread t).code ≠ [])
    (stepped : handlerStep nsMax state action = some next) (other : action ≠ .thread t) :
    next.failed = true ∨
      next.nsLock = state.nsLock ∧ next.ns = state.ns ∧ next.thread t = state.thread t := by
  cases action with
  | call u function =>
      simp only [handlerStep, Option.ite_none_right_eq_some, Option.some.injEq] at stepped
      obtain ⟨⟨_, idle⟩, rfl⟩ := stepped
      refine Or.inr ⟨rfl, rfl, Function.update_of_ne ?_ _ _⟩
      rintro rfl
      exact busy idle
  | thread u =>
      have apart : u ≠ t := by
        rintro rfl
        exact other rfl
      have excluded : NeedsLock (state.thread u).code = true → False := by
        intro needs
        have both := (tables.threads u needs).symm.trans held
        exact apart (by simpa using both)
      simp only [handlerStep] at stepped
      split_ifs at stepped
      split at stepped
      next => simp at stepped
      next instr rest code =>
        rw [code] at excluded
        rcases execute_cases stepped with rfl | ⟨⟨after, _, thread⟩, _, _, effect⟩
        · exact Or.inl rfl
        have same : next.thread t = state.thread t := by
          rw [thread, Function.update_of_ne apart.symm]
        rcases effect with ⟨rfl, free, _⟩ | ⟨rfl, _⟩ | ⟨id, writes, _⟩ | ⟨_, _, kept, ns⟩
        · exact absurd held (by simp [free])
        · exact (excluded rfl).elim
        · rcases writes with rfl | ⟨rfl, _⟩
          · exact (excluded rfl).elim
          · exact (excluded rfl).elim
        · exact Or.inr ⟨kept, ns, same⟩
  | worker destroyed processedVersion =>
      simp only [handlerStep] at stepped
      split_ifs at stepped
      rcases handlerWorkerStep_cases stepped with rfl | ⟨ns, thread, _, effect⟩
      · exact Or.inl rfl
      rcases effect with ⟨kept, _⟩ | ⟨free, _⟩ | ⟨reclaims, _⟩
      · exact Or.inr ⟨kept, ns, congrFun thread t⟩
      · exact absurd held (by simp [free])
      · exact absurd ((tables.worker reclaims).symm.trans held) (by simp)
  | users ns threads calls =>
      simp only [handlerStep] at stepped
      split_ifs at stepped
      split at stepped
      next => simp at stepped
      next =>
        obtain rfl := Option.some.inj stepped
        exact Or.inr ⟨rfl, rfl, rfl⟩

/-! ## The call of the write barrier -/

/-- What both functions that remove a namespace begin with. -/
def removalCode (id : NsId) (rest : List Instr) : List Instr :=
  .lockNsLock :: .loadNs id :: .clearNs id :: .loadNs id :: rest

theorem lrcuNsDeinitSafe_eq (id : NsId) :
    lrcuNsDeinitSafe id = removalCode id [.bumpVersion, .unlockNsLock] :=
  rfl

theorem lrcuNsDeinit_eq (id : NsId) :
    lrcuNsDeinit id = removalCode id
      (.bumpVersion :: (lrcuBarrierNs id ++
        [.destructWorkerNs id, .clearWorkerNs id, .unlockNsLock])) :=
  rfl

/-- The stages of a removal that it can be in without having failed.  The last
one is the assertion of `lrcu_write_barrier_ns`, which is bound to fail. -/
inductive InRemoval (t : Thread) (id : NsId) (rest : List Instr)
    (state : HandlerState Thread) : Prop
  | waiting (code : (state.thread t).code = removalCode id rest)
  | locked (code : (state.thread t).code = .loadNs id :: .clearNs id :: .loadNs id :: rest)
      (held : state.nsLock = some (.thread t))
  | loaded (code : (state.thread t).code = .clearNs id :: .loadNs id :: rest)
      (held : state.nsLock = some (.thread t))
  | cleared (code : (state.thread t).code = .loadNs id :: rest)
      (held : state.nsLock = some (.thread t)) (gone : state.ns id = none)

variable {t : Thread} {id : NsId} {rest : List Instr}

omit [DecidableEq Thread] in
theorem InRemoval.code_ne_nil (removal : InRemoval t id rest state) :
    (state.thread t).code ≠ [] := by
  cases removal with
  | waiting code => simp [code, removalCode]
  | locked code => simp [code]
  | loaded code => simp [code]
  | cleared code => simp [code]

private theorem InRemoval.own_step {nsMax : Nat} (removal : InRemoval t id rest state)
    (stepped : handlerStep nsMax state (.thread t) = some next) :
    next.failed = true ∨ InRemoval t id rest next := by
  simp only [handlerStep] at stepped
  split_ifs at stepped
  cases removal with
  | waiting code =>
      simp only [code, removalCode, execute, Option.ite_none_right_eq_some,
        Option.some.injEq] at stepped
      obtain ⟨_, rfl⟩ := stepped
      exact Or.inr (.locked (by simp [HandlerState.setThread]) rfl)
  | locked code held =>
      simp only [code, execute] at stepped
      split at stepped
      · obtain rfl := Option.some.inj stepped
        exact Or.inr (.loaded (by simp [HandlerState.setThread]) held)
      · exact Or.inl (Option.some.inj stepped ▸ rfl)
  | loaded code held =>
      simp only [code, execute, Option.some.injEq] at stepped
      subst stepped
      exact Or.inr (.cleared (by simp [HandlerState.setThread]) held
        (by simp [HandlerState.setThread]))
  | cleared code held gone =>
      simp only [code, execute, gone, Option.some.injEq] at stepped
      exact Or.inl (stepped ▸ rfl)

private theorem thread_eq_of_other {nsMax : Nat} {action : HandlerAction Thread}
    (busy : (state.thread t).code ≠ []) (other : action ≠ .thread t)
    (stepped : handlerStep nsMax state action = some next) :
    next.failed = true ∨ next.thread t = state.thread t := by
  cases action with
  | call u function =>
      simp only [handlerStep, Option.ite_none_right_eq_some, Option.some.injEq] at stepped
      obtain ⟨⟨_, idle⟩, rfl⟩ := stepped
      refine Or.inr (Function.update_of_ne ?_ _ _)
      rintro rfl
      exact busy idle
  | thread u =>
      have apart : t ≠ u := by
        rintro rfl
        exact other rfl
      simp only [handlerStep] at stepped
      split_ifs at stepped
      split at stepped
      next => simp at stepped
      next instr rest code =>
        rcases execute_cases stepped with rfl | ⟨⟨after, _, thread⟩, _⟩
        · exact Or.inl rfl
        · exact Or.inr (by rw [thread, Function.update_of_ne apart])
  | worker destroyed processedVersion =>
      simp only [handlerStep] at stepped
      split_ifs at stepped
      rcases handlerWorkerStep_cases stepped with rfl | ⟨_, thread, _⟩
      · exact Or.inl rfl
      · exact Or.inr (congrFun thread t)
  | users ns threads calls =>
      simp only [handlerStep] at stepped
      split_ifs at stepped
      split at stepped
      next => simp at stepped
      next =>
        obtain rfl := Option.some.inj stepped
        exact Or.inr rfl

theorem InRemoval.step {nsMax : Nat} {action : HandlerAction Thread}
    (removal : InRemoval t id rest state) (tables : LockedTables state)
    (stepped : handlerStep nsMax state action = some next) :
    next.failed = true ∨ InRemoval t id rest next := by
  by_cases own : action = .thread t
  · exact removal.own_step (own ▸ stepped)
  have framed : state.nsLock = some (.thread t) → next.failed = true ∨
      next.nsLock = some (.thread t) ∧ next.ns = state.ns ∧
        next.thread t = state.thread t := by
    intro held
    rcases tables.frame held removal.code_ne_nil stepped own with failed | ⟨kept, rest⟩
    · exact Or.inl failed
    · exact Or.inr ⟨kept.trans held, rest⟩
  cases removal with
  | waiting code =>
      refine (thread_eq_of_other (by simp [code, removalCode]) own stepped).imp_right
        fun same => .waiting ?_
      rw [same, code]
  | locked code held =>
      exact (framed held).imp_right fun ⟨kept, _, same⟩ => .locked (same ▸ code) kept
  | loaded code held =>
      exact (framed held).imp_right fun ⟨kept, _, same⟩ => .loaded (same ▸ code) kept
  | cleared code held gone =>
      exact (framed held).imp_right fun ⟨kept, ns, same⟩ =>
        .cleared (same ▸ code) kept (ns ▸ gone)

theorem lockedTables_of_reachable {nsMax : Nat}
    (reachable : Reachable (· = handlerInit Thread) (handlerStep nsMax) state) :
    state.failed = true ∨ LockedTables state := by
  refine reachable.invariant (fun state => state.failed = true ∨ LockedTables state) ?_ ?_
  · rintro _ rfl
    exact Or.inr lockedTables_init
  · intro state action next invariant stepped
    rcases invariant with failed | tables
    · cases action <;> simp [handlerStep, failed] at stepped
    · exact tables.step stepped

theorem removal_of_run {nsMax : Nat} {actions : List (HandlerAction Thread)}
    {final : HandlerState Thread} (tables : LockedTables state)
    (removal : InRemoval t id rest state)
    (ran : run (handlerStep nsMax) state actions = some final) :
    final.failed = true ∨ LockedTables final ∧ InRemoval t id rest final := by
  refine run_preserves (fun state =>
    state.failed = true ∨ LockedTables state ∧ InRemoval t id rest state) ?_
    (Or.inr ⟨tables, removal⟩) ran
  intro state action next invariant stepped
  rcases invariant with failed | ⟨tables, removal⟩
  · cases action <;> simp [handlerStep, failed] at stepped
  · rcases tables.step stepped with failed | tablesNext
    · exact Or.inl failed
    · exact (removal.step tables stepped).imp_right fun removalNext =>
        ⟨tablesNext, removalNext⟩

/-- What is promised of a function that removes a namespace, called by `t`:
while only the call and the worker run, no assertion fails, neither in the call
nor in the worker afterwards, and the call can run to its end and leaves no
namespace behind for the users. -/
structure RemovesCleanly (nsMax : Nat) (function : HandlerCall) (state : HandlerState Thread)
    (t : Thread) (id : NsId) : Prop where
  noFailure : ∀ actions final,
    (∀ action ∈ actions, action = .thread t ∨
      ∃ destroyed processedVersion, action = .worker destroyed processedVersion) →
    run (handlerStep nsMax) state (.call t function :: actions) = some final →
      final.failed = false
  runsToEnd : ∃ actions final,
    run (handlerStep nsMax) state (.call t function :: actions) = some final ∧
      (final.thread t).code = [] ∧ final.failed = false ∧ final.ns id = none

private theorem not_removesCleanly_of_code {nsMax : Nat} {function : HandlerCall}
    (code : function.code = removalCode id rest)
    (reachable : Reachable (· = handlerInit Thread) (handlerStep nsMax) state) :
    ¬ RemovesCleanly nsMax function state t id := by
  rintro ⟨_, actions, final, ran, returned, sound, _⟩
  obtain ⟨called, stepped, ran⟩ := run_cons_eq_some_iff.mp ran
  have entered : InRemoval t id rest called := by
    simp only [handlerStep, Option.ite_none_right_eq_some, Option.some.injEq] at stepped
    obtain ⟨_, rfl⟩ := stepped
    exact .waiting (by simp [HandlerState.setThread, code])
  rcases lockedTables_of_reachable (reachable.step_of stepped) with failed | tables
  · simp only [handlerStep, Option.ite_none_right_eq_some, Option.some.injEq] at stepped
    obtain ⟨⟨alive, _⟩, rfl⟩ := stepped
    exact absurd failed (by simp [HandlerState.setThread, alive])
  · rcases removal_of_run tables entered ran with failed | ⟨_, removal⟩
    · exact absurd failed (by simp [sound])
    · exact removal.code_ne_nil returned

/-- In no reachable state does either function remove a namespace cleanly: no
schedule lets its call return. -/
theorem not_removesCleanly (nsMax : Nat) (state : HandlerState Thread) (t : Thread)
    (id : NsId) (reachable : Reachable (· = handlerInit Thread) (handlerStep nsMax) state) :
    ¬ RemovesCleanly nsMax (.lrcuNsDeinitSafe id) state t id ∧
      ¬ RemovesCleanly nsMax (.lrcuNsDeinit id) state t id :=
  ⟨not_removesCleanly_of_code (lrcuNsDeinitSafe_eq id) reachable,
    not_removesCleanly_of_code (lrcuNsDeinit_eq id) reachable⟩

/-- The default namespace is installed and the worker has seen it. -/
theorem not_removesCleanly_of_default :
    ∃ state, run (handlerStep 1) (handlerInit (Fin 1))
        [.call 0 (.lrcuNsInit 0), .thread 0, .thread 0, .thread 0, .thread 0, .thread 0,
          .worker 0 0] = some state ∧
      ¬ RemovesCleanly 1 (.lrcuNsDeinitSafe 0) state 0 0 ∧
        ¬ RemovesCleanly 1 (.lrcuNsDeinit 0) state 0 0 :=
  ⟨_, rfl, not_removesCleanly 1 _ 0 0
    ⟨handlerInit (Fin 1), [.call 0 (.lrcuNsInit 0), .thread 0, .thread 0, .thread 0, .thread 0,
      .thread 0, .worker 0 0], rfl, rfl⟩⟩

/-- `lrcu_ns_deinit_safe` on the installed default namespace: its own write
barrier finds the pointer that it has just cleared. -/
theorem removesCleanly_fails_at_default :
    ¬ ∀ (nsMax : Nat) (state : HandlerState (Fin 1)) (t : Fin 1) (id : NsId),
      Reachable (· = handlerInit (Fin 1)) (handlerStep nsMax) state → state.ns id ≠ none →
        RemovesCleanly nsMax (.lrcuNsDeinitSafe id) state t id ∧
          RemovesCleanly nsMax (.lrcuNsDeinit id) state t id := by
  intro clean
  have safe := (clean 1 _ 0 0 ⟨handlerInit (Fin 1),
    [.call 0 (.lrcuNsInit 0), .thread 0, .thread 0, .thread 0, .thread 0, .thread 0],
    rfl, rfl⟩ (by decide)).1
  have sound := safe.noFailure [.thread 0, .thread 0, .thread 0, .thread 0] _ (by simp) rfl
  exact absurd sound (by decide)

end LightRcu
