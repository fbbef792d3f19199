import LightRcu.GetSynchronized

/-!
# The timers of the two back ends

`__lrcu_get_synchronized` is written against the `LRCU_TIMER_*` macros, which
`user.h` and `linux.h` define differently.  The macros are applied to pointers,
so an iteration is modelled with the objects that these point to.  Those of
`linux.h` look at the pointers themselves and drop the time that they read,
so that no timer is ever set, and no thread hangs.
-/

namespace LightRcu

open Execution

/-- The addresses of the `LRCU_TIMER_TYPE` objects of one iteration:
`&ti->timeval[ns->id]` and the local variables. -/
inductive TimerPointer
  | null
  | tiTimeval
  | timeout
  | timerExpires
  | now
  deriving DecidableEq, Repr

/-- The pointer variable `ti_timeval`, and the objects. -/
structure TimerVars (Time : Type*) where
  tiTimeval : TimerPointer
  object : TimerPointer → Time

/-- The `LRCU_TIMER_*` macros.  `get` is called at a time in microseconds, and
`clear` is given a variable, of which it may assign the value. -/
structure TimerMacros (Time : Type*) where
  init : Nat → Nat → Time
  add : TimerPointer → TimerPointer → TimerPointer → (TimerPointer → Time) →
    TimerPointer → Time
  get : TimerPointer → Nat → (TimerPointer → Time) → TimerPointer → Time
  isset : TimerPointer → (TimerPointer → Time) → Bool
  clear : TimerVars Time → TimerVars Time
  cmpLt : TimerPointer → TimerPointer → (TimerPointer → Time) → Bool

/-! ## `user.h` -/

/-- `struct timeval`. -/
structure Timeval where
  tvSec : Nat
  tvUsec : Nat
  deriving DecidableEq, Repr

def timeradd (a b : Timeval) : Timeval :=
  if a.tvUsec + b.tvUsec ≥ 10 ^ 6 then
    ⟨a.tvSec + b.tvSec + 1, a.tvUsec + b.tvUsec - 10 ^ 6⟩
  else ⟨a.tvSec + b.tvSec, a.tvUsec + b.tvUsec⟩

/-- `timercmp(a, b, <)` -/
def timercmpLt (a b : Timeval) : Bool :=
  if a.tvSec = b.tvSec then decide (a.tvUsec < b.tvUsec) else decide (a.tvSec < b.tvSec)

def timerisset (timer : Timeval) : Bool :=
  timer.tvSec != 0 || timer.tvUsec != 0

/-- `gettimeofday` at a time in microseconds. -/
def gettimeofday (now : Nat) : Timeval :=
  ⟨now / 10 ^ 6, now % 10 ^ 6⟩

def userTimers : TimerMacros Timeval where
  init sec usec := ⟨sec, usec⟩
  add a b c object := Function.update object c (timeradd (object a) (object b))
  get x now object := Function.update object x (gettimeofday now)
  isset x object := timerisset (object x)
  clear vars := { vars with object := Function.update vars.object vars.tiTimeval ⟨0, 0⟩ }
  cmpLt a b object := timercmpLt (object a) (object b)

/-! ## `linux.h` -/

/-- What the macros of `linux.h` take from the kernel: the time in jiffies, the
two conversions, and how the addresses of the objects compare. -/
structure KernelTime where
  getJiffies64 : Nat → Nat
  msecsToJiffies : Nat → Nat
  usecsToJiffies : Nat → Nat
  addressLt : TimerPointer → TimerPointer → Bool

def linuxTimers (kernel : KernelTime) : TimerMacros Nat where
  init sec usec := kernel.msecsToJiffies (1000 * sec) + kernel.usecsToJiffies usec
  add a b c object := Function.update object c (object b + object a)
  -- the value of `get_jiffies_64()` is not used
  get _ _ object := object
  -- `(ti_timeval) == 0`
  isset x _ := decide (x = .null)
  -- `(ti_timeval) = 0`
  clear vars := { vars with tiTimeval := .null }
  -- `(&now) < (&timer_expires)`
  cmpLt a b _ := kernel.addressLt a b

/-! ## The pass, for any macros -/

/-- The fields of a thread that the pass owns, with the timer of the back end. -/
structure TimedInfo (Time : Type*) where
  timeval : Time
  hungLns : LrcuLocalNamespace

structure TimedVisit (Time : Type*) where
  range : Option LrcuRange
  info : TimedInfo Time
  moves : Bool

/-- `LRCU_HANG_TIMEOUT_S`. -/
def lrcuHangTimeoutS : Nat := 600

/-- What the loop over `ns->threads` does with the timer of a thread in a read
section: the objects afterwards, and whether the thread is found to hang. -/
def testTimer {Time : Type*} (timers : TimerMacros Time) (hungLns : LrcuLocalNamespace)
    (sample : Sample) (vars : TimerVars Time) : (TimerPointer → Time) × Bool :=
  if timers.isset vars.tiTimeval vars.object then
    if sample.lns.version ≤ hungLns.version then
      let object := Function.update vars.object .timeout (timers.init lrcuHangTimeoutS 0)
      let object := timers.add vars.tiTimeval .timeout .timerExpires object
      let object := timers.get .now sample.now object
      (object, !timers.cmpLt .now .timerExpires object)
    else (vars.object, false)
  else (timers.get vars.tiTimeval sample.now vars.object, false)

/-- The body of the loop over `ns->threads`.  The local variables start with
what was on the stack. -/
def visitThreadTimed {Time : Type*} (timers : TimerMacros Time) (stack : TimerPointer → Time)
    (currentVersion : Nat) (info : TimedInfo Time) (sample : Sample) : TimedVisit Time :=
  let vars : TimerVars Time := ⟨.tiTimeval, Function.update stack .tiTimeval info.timeval⟩
  if sample.lns.counter ≠ 0 then
    let (object, moves) := testTimer timers info.hungLns sample vars
    { range := some ⟨sample.lns.version, currentVersion⟩
      info :=
        { timeval := object .tiTimeval
          hungLns := { sample.lns with version := currentVersion } }
      moves := moves }
  else
    { range := none
      info := { info with timeval := (timers.clear vars).object .tiTimeval }
      moves := false }

/-- The body of the loop over `ns->hung_threads`, which uses no timer. -/
def visitHungThreadTimed {Time : Type*} (currentVersion : Nat) (info : TimedInfo Time)
    (sample : Sample) : TimedVisit Time :=
  let visit := visitHungThread currentVersion ⟨0, info.hungLns⟩ sample
  { range := visit.range, info := info, moves := visit.moves }

/-- The lists of a namespace, with the data of the threads. -/
structure TimedLists (Ti Time : Type*) where
  threads : List Ti
  hungThreads : List Ti
  info : Ti → TimedInfo Time

/-- A pass between two visits. -/
structure TimedPass (Ti Time : Type*) where
  lists : TimedLists Ti Time
  loop : PassLoop
  index : Nat
  currentVersion : Nat

inductive BackEndAction
  /-- The start of a pass, which loads `ns->version`. -/
  | start (currentVersion : Nat)
  /-- One iteration of the loop that the pass is in. -/
  | visit (sample : Sample)
  /-- From the end of the first loop to the second. -/
  | nextLoop

variable {Ti Time : Type*} [DecidableEq Ti]

def TimedLists.walked (lists : TimedLists Ti Time) : PassLoop → List Ti
  | .threads => lists.threads
  | .hungThreads => lists.hungThreads

/-- `lrcu_list_unlink_next` on the list that the loop walks, and
`lrcu_list_insert` on the other one. -/
def TimedLists.move (lists : TimedLists Ti Time) (index : Nat) (ti : Ti) :
    PassLoop → TimedLists Ti Time
  | .threads =>
      { lists with
        threads := lists.threads.eraseIdx index
        hungThreads := ti :: lists.hungThreads }
  | .hungThreads =>
      { lists with
        threads := ti :: lists.threads
        hungThreads := lists.hungThreads.eraseIdx index }

def PassLoop.visitTimed (loop : PassLoop) (timers : TimerMacros Time)
    (stack : TimerPointer → Time) :
    Nat → TimedInfo Time → Sample → TimedVisit Time :=
  match loop with
  | .threads => visitThreadTimed timers stack
  | .hungThreads => visitHungThreadTimed

/-- One step of the passes of a back end.  The ranges are left out: no visit
reads them. -/
def timerPassStep (timers : TimerMacros Time) (stack : TimerPointer → Time)
    (pass : TimedPass Ti Time) : BackEndAction → Option (TimedPass Ti Time)
  | .start currentVersion =>
      if pass.loop = .hungThreads ∧ pass.lists.hungThreads.length ≤ pass.index then
        some { pass with loop := .threads, index := 0, currentVersion := currentVersion }
      else none
  | .nextLoop =>
      if pass.loop = .threads ∧ pass.lists.threads.length ≤ pass.index then
        some { pass with loop := .hungThreads, index := 0 }
      else none
  | .visit sample =>
      match (pass.lists.walked pass.loop)[pass.index]? with
      | none => none
      | some ti =>
          let visit := pass.loop.visitTimed timers stack pass.currentVersion
            (pass.lists.info ti) sample
          let lists := { pass.lists with
            info := Function.update pass.lists.info ti visit.info }
          if visit.moves then
            some { pass with lists := lists.move pass.index ti pass.loop }
          else
            some { pass with lists := lists, index := pass.index + 1 }

omit [DecidableEq Ti] in
@[simp]
theorem TimedLists.move_info (lists : TimedLists Ti Time) (index : Nat) (ti : Ti)
    (loop : PassLoop) : (lists.move index ti loop).info = lists.info := by
  cases loop <;> rfl

omit [DecidableEq Ti] in
theorem TimedLists.walked_move (lists : TimedLists Ti Time) (index : Nat) (ti : Ti)
    (loop other : PassLoop) :
    (lists.move index ti loop).walked other =
      if other = loop then (lists.walked other).eraseIdx index
      else ti :: lists.walked other := by
  cases loop <;> cases other <;> rfl

/-- The next iteration of a loop, whether the thread is kept or moved. -/
theorem timerPassStep_visit_iff (timers : TimerMacros Time) (stack : TimerPointer → Time)
    (sample : Sample) {pass next : TimedPass Ti Time} :
    timerPassStep timers stack pass (.visit sample) = some next ↔
      ∃ ti, (pass.lists.walked pass.loop)[pass.index]? = some ti ∧
        let visit := pass.loop.visitTimed timers stack pass.currentVersion
          (pass.lists.info ti) sample
        let lists := { pass.lists with info := Function.update pass.lists.info ti visit.info }
        next = if visit.moves then { pass with lists := lists.move pass.index ti pass.loop }
          else { pass with lists := lists, index := pass.index + 1 } := by
  rw [timerPassStep]
  cases (pass.lists.walked pass.loop)[pass.index]? with
  | none => simp
  | some ti =>
      simp only [Option.some.injEq, exists_eq_left']
      split_ifs <;> simp [eq_comm]

/-! ## The macros of `user.h` -/

/-- A time in microseconds. -/
def Timeval.usecs (time : Timeval) : Nat :=
  time.tvSec * 10 ^ 6 + time.tvUsec

/-- The microseconds fit below a second, as `gettimeofday` returns them. -/
def Timeval.Normal (time : Timeval) : Prop :=
  time.tvUsec < 10 ^ 6

theorem usecs_gettimeofday (now : Nat) : (gettimeofday now).usecs = now := by
  simp only [gettimeofday, Timeval.usecs]
  omega

theorem normal_gettimeofday (now : Nat) : (gettimeofday now).Normal :=
  Nat.mod_lt now (by decide)

theorem usecs_timeradd (a b : Timeval) : (timeradd a b).usecs = a.usecs + b.usecs := by
  simp only [timeradd, Timeval.usecs]
  split_ifs <;> simp only <;> omega

theorem normal_timeradd {a b : Timeval} (normal : a.Normal) (normal' : b.Normal) :
    (timeradd a b).Normal := by
  simp only [timeradd, Timeval.Normal] at normal normal' ⊢
  split_ifs <;> simp only <;> omega

theorem timercmpLt_iff {a b : Timeval} (normal : a.Normal) (normal' : b.Normal) :
    timercmpLt a b = decide (a.usecs < b.usecs) := by
  simp only [timercmpLt, Timeval.usecs, Timeval.Normal] at normal normal' ⊢
  split_ifs <;> apply decide_eq_decide.mpr <;> omega

theorem timerisset_eq (time : Timeval) : timerisset time = lrcuTimerIsset time.usecs := by
  simp only [timerisset, lrcuTimerIsset, Timeval.usecs]
  rw [Bool.eq_iff_iff]
  simp only [Bool.or_eq_true, bne_iff_ne, ne_eq]
  omega

/-- The fields of a thread, with its time in microseconds. -/
def TimedInfo.toThreadInfo (info : TimedInfo Timeval) : LrcuThreadInfo :=
  ⟨info.timeval.usecs, info.hungLns⟩

/-- With the macros of `user.h` a visit does what it does to times in
microseconds. -/
theorem visitThreadTimed_user (stack : TimerPointer → Timeval) (currentVersion : Nat)
    {info : TimedInfo Timeval} (sample : Sample) (normal : info.timeval.Normal) :
    let timed := visitThreadTimed userTimers stack currentVersion info sample
    let visit := visitThread currentVersion info.toThreadInfo sample
    timed.range = visit.range ∧ timed.info.toThreadInfo = visit.info ∧
      timed.moves = visit.moves ∧ timed.info.timeval.Normal := by
  have timeout : (⟨lrcuHangTimeoutS, 0⟩ : Timeval).Normal := Nat.pow_pos (by decide)
  have expires := timercmpLt_iff (normal_gettimeofday sample.now) (normal_timeradd normal timeout)
  rw [usecs_gettimeofday, usecs_timeradd] at expires
  have length : (⟨lrcuHangTimeoutS, 0⟩ : Timeval).usecs = lrcuHangTimeout := rfl
  rw [length] at expires
  simp only [visitThreadTimed, visitThread, TimedInfo.toThreadInfo]
  by_cases active : sample.lns.counter = 0
  · simp [active, userTimers, Timeval.usecs, Timeval.Normal]
  · simp only [ne_eq, active, not_false_eq_true, if_true, true_and]
    by_cases set : timerisset info.timeval = true
    · have set' : lrcuTimerIsset info.timeval.usecs = true := by rwa [← timerisset_eq]
      by_cases late : sample.lns.version ≤ info.hungLns.version
      · simp [testTimer, userTimers, set, set', late, hangTest, expires, normal]
      · simp [testTimer, userTimers, set, set', late, hangTest, normal]
    · have unset : lrcuTimerIsset info.timeval.usecs = false := by
        rw [← timerisset_eq]
        simpa using set
      simp [testTimer, userTimers, set, unset, hangTest, usecs_gettimeofday,
        normal_gettimeofday]

/-- The lists of a namespace, with times in microseconds. -/
def TimedLists.toThreadLists (lists : TimedLists Ti Timeval) : ThreadLists Ti :=
  ⟨lists.threads, lists.hungThreads, fun ti => (lists.info ti).toThreadInfo⟩

/-- With the macros of `user.h` the iterations are those of the pass. -/
theorem timerPassStep_user_refines (stack : TimerPointer → Timeval) {pass : TimedPass Ti Timeval}
    {sample : Sample} {rbt : LrcuRangetree} {next : PassState Ti}
    (normal : ∀ ti, (pass.lists.info ti).timeval.Normal)
    (visited : visitNext pass.loop pass.currentVersion
      ⟨pass.lists.toThreadLists, pass.index, rbt⟩ sample = some next) :
    ∃ next', timerPassStep userTimers stack pass (.visit sample) = some next' ∧
      next'.lists.toThreadLists = next.lists ∧ next'.index = next.index ∧
      next'.loop = pass.loop ∧ next'.currentVersion = pass.currentVersion ∧
      ∀ ti, (next'.lists.info ti).timeval.Normal := by
  have walked : pass.lists.toThreadLists.walked pass.loop = pass.lists.walked pass.loop := by
    cases pass.loop <;> rfl
  unfold visitNext at visited
  simp only [walked] at visited
  rw [timerPassStep]
  cases found : (pass.lists.walked pass.loop)[pass.index]? with
  | none => simp [found] at visited
  | some ti =>
      obtain ⟨_, info, moves, normal'⟩ :
          let timed := pass.loop.visitTimed userTimers stack pass.currentVersion
            (pass.lists.info ti) sample
          let visit := pass.loop.visit pass.currentVersion (pass.lists.info ti).toThreadInfo sample
          timed.range = visit.range ∧ timed.info.toThreadInfo = visit.info ∧
            timed.moves = visit.moves ∧ timed.info.timeval.Normal := by
        cases pass.loop with
        | threads => exact visitThreadTimed_user stack _ sample (normal ti)
        | hungThreads => exact ⟨rfl, rfl, rfl, normal ti⟩
      simp only [found] at visited ⊢
      obtain ⟨rbt', _, rfl⟩ := Option.map_eq_some_iff.mp visited
      generalize pass.loop.visitTimed userTimers stack pass.currentVersion
        (pass.lists.info ti) sample = timed at info moves normal' ⊢
      have threadInfo : pass.lists.toThreadLists.info ti = (pass.lists.info ti).toThreadInfo :=
        rfl
      rw [threadInfo]
      generalize pass.loop.visit pass.currentVersion (pass.lists.info ti).toThreadInfo sample =
        visit at info moves ⊢
      have stored : ∀ ti', (Function.update pass.lists.info ti timed.info ti').toThreadInfo =
          Function.update pass.lists.toThreadLists.info ti visit.info ti' := by
        intro ti'
        rcases eq_or_ne ti' ti with rfl | other
        · rw [Function.update_self, Function.update_self, info]
        · rw [Function.update_of_ne other, Function.update_of_ne other]
          rfl
      have normals : ∀ ti', (Function.update pass.lists.info ti timed.info ti').timeval.Normal := by
        intro ti'
        rcases eq_or_ne ti' ti with rfl | other
        · rwa [Function.update_self]
        · rw [Function.update_of_ne other]
          exact normal ti'
      rw [← moves]
      cases timed.moves with
      | false =>
          refine ⟨_, rfl, ?_, rfl, rfl, rfl, normals⟩
          simp only [TimedLists.toThreadLists, ThreadLists.setInfo, Bool.false_eq_true, if_false]
          exact congrArg _ (funext stored)
      | true =>
          refine ⟨_, rfl, ?_, rfl, rfl, rfl, ?_⟩
          · cases pass.loop <;>
              exact congrArg (ThreadLists.mk _ _) (funext stored)
          · cases pass.loop <;> exact normals

end LightRcu
