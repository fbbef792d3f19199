import LightRcu.GetSynchronized
import LightRcu.VersionClock

/-!
# Registration of threads with the namespaces

A thread is registered with a namespace by a node that points to its
`lrcu_thread_info`, on one of the two lists of the namespace.  Threads add and
remove nodes of their own, passes move nodes between the lists, and the
destructor of a thread removes its nodes from one namespace after the other.
All namespaces are initialised, and each access to a list holds its
`threads_lock`.
-/

namespace LightRcu

/-- The life of a `lrcu_thread_info`.  While its thread is in
`thread_destructor_callback`, the loop has the variables `i` and `found`. -/
inductive TiStatus
  | unused
  | live
  | exiting (i : Nat) (found : Bool)
  | freed
  deriving DecidableEq, Repr

structure RegistryState (Ti : Type*) where
  lists : NsId → ThreadLists Ti
  counter : Ti → NsId → Nat
  status : Ti → TiStatus
  /-- The thread whose destructor holds `h->ns_lock`. -/
  nsLock : Option Ti

inductive RegistryAction (Ti : Type*)
  | lrcuThreadInit (ti : Ti)
  | lrcuThreadSetNs (ti : Ti) (nsId : NsId)
  | lrcuThreadDelNs (ti : Ti) (nsId : NsId)
  | lrcuReadLockNs (ti : Ti) (nsId : NsId)
  | lrcuReadUnlockNs (ti : Ti) (nsId : NsId)
  | pass (nsId : NsId) (currentVersion : Nat) (samples hungSamples : List Sample)
      (ranges : Nat → LrcuRange)
  /-- The start of `lrcu_thread_deinit`, up to the loop over the namespaces. -/
  | deinitLock (ti : Ti)
  /-- One iteration of that loop. -/
  | deinitVisit (ti : Ti)
  /-- The end of the loop, and `LRCU_FREE(ti)`. -/
  | deinitFree (ti : Ti)

variable {Ti : Type*} [DecidableEq Ti]

/-- The worker has a `lrcu_thread_info` of its own, which `lrcu_ns_init`
registers with every namespace. -/
def registryInit (workerTi : Ti) : RegistryState Ti where
  lists := fun _ => ⟨[workerTi], [], fun _ => ⟨0, ⟨0, 0⟩⟩⟩
  counter := fun _ _ => 0
  status := fun ti => if ti = workerTi then .live else .unused
  nsLock := none

/-- `lrcu_list_find_ptr_unlink(&ns->threads, ti)` finds the first node. -/
def threadRemoveFromNs (lists : ThreadLists Ti) (ti : Ti) : ThreadLists Ti × Bool :=
  if ti ∈ lists.threads then ({ lists with threads := lists.threads.erase ti }, true)
  else (lists, false)

/-- `found = found || thread_remove_from_ns(ti, i)`. -/
def threadDestructorIteration (lists : ThreadLists Ti) (ti : Ti) (found : Bool) :
    ThreadLists Ti × Bool :=
  if found then (lists, true) else threadRemoveFromNs lists ti

namespace RegistryState

def setLists (state : RegistryState Ti) (nsId : NsId) (lists : ThreadLists Ti) :
    RegistryState Ti :=
  { state with lists := Function.update state.lists nsId lists }

def setStatus (state : RegistryState Ti) (ti : Ti) (status : TiStatus) : RegistryState Ti :=
  { state with status := Function.update state.status ti status }

def setCounter (state : RegistryState Ti) (ti : Ti) (nsId : NsId) (counter : Nat) :
    RegistryState Ti :=
  { state with
    counter := Function.update state.counter ti
      (Function.update (state.counter ti) nsId counter) }

end RegistryState

/-- The registry with `nsMax` namespaces.  `lrcu_thread_set_ns` holds `ns_lock`
only to look up the namespace, so its insertion can fall into the loop of
another thread's destructor. -/
def registryStep (nsMax : Nat) (state : RegistryState Ti) :
    RegistryAction Ti → Option (RegistryState Ti)
  | .lrcuThreadInit ti =>
      if state.status ti = .unused then some (state.setStatus ti .live) else none
  | .lrcuThreadSetNs ti nsId =>
      if state.status ti = .live ∧ nsId < nsMax then
        some (state.setLists nsId
          { state.lists nsId with threads := ti :: (state.lists nsId).threads })
      else none
  | .lrcuThreadDelNs ti nsId =>
      if state.status ti = .live ∧ nsId < nsMax ∧ state.nsLock = none then
        some (state.setLists nsId (threadRemoveFromNs (state.lists nsId) ti).1)
      else none
  | .lrcuReadLockNs ti nsId =>
      if state.status ti = .live ∧ nsId < nsMax then
        some (state.setCounter ti nsId (state.counter ti nsId + 1))
      else none
  | .lrcuReadUnlockNs ti nsId =>
      if state.status ti = .live ∧ 0 < state.counter ti nsId then
        some (state.setCounter ti nsId (state.counter ti nsId - 1))
      else none
  | .pass nsId currentVersion samples hungSamples ranges =>
      if nsId < nsMax then
        (PassInput.run ⟨currentVersion, samples, hungSamples, state.lists nsId⟩ ranges).map
          fun result => state.setLists nsId result.1
      else none
  | .deinitLock ti =>
      if state.status ti = .live ∧ state.nsLock = none ∧
          ∀ nsId < nsMax, state.counter ti nsId = 0 then
        some { state.setStatus ti (.exiting 0 false) with nsLock := some ti }
      else none
  | .deinitVisit ti =>
      match state.status ti with
      | .exiting i found =>
          if i < nsMax then
            let (lists, found) := threadDestructorIteration (state.lists i) ti found
            some ((state.setLists i lists).setStatus ti (.exiting (i + 1) found))
          else none
      | _ => none
  | .deinitFree ti =>
      match state.status ti with
      | .exiting i _ =>
          if i < nsMax then none
          else some { state.setStatus ti .freed with nsLock := none }
      | _ => none

/-- Some node of the namespace points to the thread. -/
def ThreadLists.Points (lists : ThreadLists Ti) (ti : Ti) : Prop :=
  ti ∈ lists.threads ∨ ti ∈ lists.hungThreads

instance (lists : ThreadLists Ti) (ti : Ti) : Decidable (lists.Points ti) :=
  inferInstanceAs (Decidable (_ ∨ _))

/-- An iteration of the destructor of `ti` finds all that the namespace has of
it: a single node on `threads` while none was found before, and no node at all
afterwards. -/
def VisitFindsAll (ti : Ti) (state : RegistryState Ti) (action : RegistryAction Ti) : Prop :=
  ∀ i found, action = .deinitVisit ti → state.status ti = .exiting i found →
    (state.lists i).threads.count ti ≤ (if found then 0 else 1) ∧
      ti ∉ (state.lists i).hungThreads

end LightRcu
