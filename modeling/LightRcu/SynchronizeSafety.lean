import LightRcu.PassCoverage

/-!
# Waiting for the readers

A caller of `lrcu_synchronize_ns` repeats its passes until one of them does not
hold back the version that it loaded at its entry.  A thread that has been
inside since then is met by every pass, and the caller goes round again.
-/

namespace LightRcu

open Execution

variable {state next : NamespaceState}

/-- The caller is in the wait loop of `lrcu_synchronize_ns`, or on the way to
it. -/
def CallerPc.Synchronizing : CallerPc → Prop
  | .loadVersion .. | .waiting .. => True
  | _ => False

/-- The caller cannot leave its loop on account of the thread, which is inside
since before the version was loaded. -/
structure AwaitsReader (c : CallerId) (i : ReaderId) (state : NamespaceState) : Prop where
  inside : state.Inside i
  synchronizing : (state.caller c).Synchronizing
  loaded : ∀ barrier currentVersion pass,
    state.caller c = .waiting barrier currentVersion pass →
      (state.lns i).version ≤ currentVersion ∧ currentVersion ≤ state.version ∧
        PassCovers state.lists.threads i currentVersion pass

namespace AwaitsReader

variable {c : CallerId} {i : ReaderId}

private theorem move_synchronizing {pc : CallerPc} (awaits : AwaitsReader c i state)
    (move : CallerMove state c (state.caller c) pc) : pc.Synchronizing := by
  have synchronizing := awaits.synchronizing
  have loaded := awaits.loaded
  generalize state.caller c = before at synchronizing loaded move
  cases move with
  | loadVersion | again => trivial
  | leave currentVersion rbt free | leaveBarrier currentVersion rbt free =>
      obtain ⟨_, _, held⟩ := loaded _ _ _ rfl
      exact absurd (held.symm.trans free) (by simp)
  | loadBarrier | passBarrier | poll => exact synchronizing.elim

theorem step {action : NamespaceAction} (awaits : AwaitsReader c i state)
    (holds : QuietOk state) (quiet : Quiet state action)
    (stepped : namespaceStep state action = some next) (stays : (next.lns i).counter ≠ 0) :
    AwaitsReader c i next := by
  obtain ⟨inside, same⟩ :=
    (inside_of_step holds.depths quiet.depth awaits.inside stepped).resolve_right stays
  have grown := version_le_of_step quiet.version stepped
  have counted := awaits.inside.counter_pos
  have covers : ∀ barrier currentVersion pass pass',
      state.caller c = .waiting barrier currentVersion pass →
        next.passOf (.caller c) = some pass' →
          (next.lns i).version ≤ currentVersion ∧ currentVersion ≤ next.version ∧
            PassCovers next.lists.threads i currentVersion pass' := by
    intro barrier currentVersion pass pass' waiting found
    obtain ⟨entered, bounded, _⟩ := awaits.loaded _ _ _ waiting
    refine ⟨same ▸ entered, bounded.trans grown, ?_⟩
    refine PassCovers.of_step (fun pass before => ?_) holds.ok holds.noneHung quiet.hang stepped
      found (by omega) entered bounded
    obtain ⟨barrier', currentVersion', waiting'⟩ := passOf_caller.mp before
    obtain ⟨_, rfl, rfl⟩ := CallerPc.waiting.inj (waiting.symm.trans waiting')
    exact (awaits.loaded _ _ _ waiting).2.2
  refine ⟨inside, ?_, fun barrier currentVersion pass' waiting => ?_⟩
  · rcases caller_of_step c stepped with kept | ⟨_, _, _, _, _, moved⟩ | move | ⟨idle, _⟩
    · rw [kept]
      exact awaits.synchronizing
    · rw [moved]
      trivial
    · exact awaits.move_synchronizing move
    · exact absurd awaits.synchronizing (by simp [idle, CallerPc.Synchronizing])
  · have found := passOf_caller.mpr ⟨barrier, currentVersion, waiting⟩
    rcases caller_of_step c stepped with kept | ⟨_, _, _, _, before, moved⟩ | move | ⟨idle, _⟩
    · exact covers _ _ _ _ (kept.symm.trans waiting) found
    · obtain ⟨rfl, rfl, rfl⟩ := CallerPc.waiting.inj (moved.symm.trans waiting)
      exact covers _ _ _ _ before found
    · rw [waiting] at move
      generalize before : state.caller c = pc at move
      cases move with
      | loadVersion barrier ranges =>
          exact ⟨same ▸ (holds.versions i).versionLe, grown, trivial⟩
      | again barrier currentVersion rbt => exact covers _ _ _ _ before found
    · exact absurd awaits.synchronizing (by simp [idle, CallerPc.Synchronizing])

end AwaitsReader

/-- Once a call of `lrcu_synchronize_ns` is out of its loop, every thread that
was inside a read section when it was entered has left that section, as long as
neither the version nor a nesting depth wraps. -/
theorem lrcuSynchronizeNs_outwaits {workerTi : ReaderId} {ranges localRanges : Nat → LrcuRange}
    {front actions : List NamespaceAction} {entered begun final : NamespaceState}
    {c : CallerId} {barrier : Bool} {i : ReaderId}
    (quiet : Meets namespaceStep Quiet (namespaceInit workerTi ranges)
      (front ++ .enter c barrier localRanges :: actions))
    (reached : run namespaceStep (namespaceInit workerTi ranges) front = some entered)
    (enters : namespaceStep entered (.enter c barrier localRanges) = some begun)
    (ran : run namespaceStep begun actions = some final)
    (returned : ¬ (final.caller c).Synchronizing) (inside : entered.Inside i) :
    Sometime namespaceStep (fun state => (state.lns i).counter = 0) begun actions := by
  have holds := run_preserves_of_meets QuietOk
    (fun _ _ _ quiet holds stepped => holds.step quiet stepped) quiet.append_left
    (.init workerTi ranges) reached
  have quietEnter := quiet.append_right reached
  have awaits : AwaitsReader c i begun := by
    obtain ⟨_, rfl⟩ := enter_shape enters
    refine ⟨inside, ?_, fun barrier' currentVersion pass waiting => ?_⟩
    · simp [NamespaceState.setCaller, CallerPc.Synchronizing]
    · simp [NamespaceState.setCaller] at waiting
  have outcome := sometime_or_preserved (fun state => QuietOk state ∧ AwaitsReader c i state)
    (fun _ _ _ quiet holds stepped stays =>
      ⟨holds.1.step quiet stepped, holds.2.step holds.1 quiet stepped stays⟩)
    (quietEnter.2 begun enters) ⟨holds.step quietEnter.1 enters, awaits⟩ ran
  exact outcome.resolve_right fun survived => returned survived.2.synchronizing

/-- The caller makes one pass over a reader that entered before it, and leaves
its loop after another pass, in which the reader has entered again. -/
def synchronizeActions : List NamespaceAction :=
  [.caller 0] ++ passActions (.caller 0) 2 ++
    [.caller 0, .reader 1 .lrcuReadUnlockNs, .writer .lrcuWriteBarrierNs,
      .reader 1 .lockCount, .reader 1 .lockTest, .reader 1 .lockStore] ++
    passActions (.caller 0) 2 ++ [.caller 0]

theorem lrcuSynchronizeNs_outwaits_of_reentry :
    ∃ entered begun final,
      run namespaceStep (namespaceInit 0 fun _ => ⟨0, 0⟩)
          [.reader 1 .lrcuThreadSetNs, .reader 1 .lockCount, .reader 1 .lockTest,
            .reader 1 .lockStore] = some entered ∧
        namespaceStep entered (.enter 0 false fun _ => ⟨0, 0⟩) = some begun ∧
          run namespaceStep begun synchronizeActions = some final ∧
            Sometime namespaceStep (fun state => (state.lns 1).counter = 0) begun
              synchronizeActions := by
  obtain ⟨entered, begun, final, reached, enters, ran, returned, inside⟩ :
      ∃ entered begun final,
        run namespaceStep (namespaceInit 0 fun _ => ⟨0, 0⟩)
            [.reader 1 .lrcuThreadSetNs, .reader 1 .lockCount, .reader 1 .lockTest,
              .reader 1 .lockStore] = some entered ∧
          namespaceStep entered (.enter 0 false fun _ => ⟨0, 0⟩) = some begun ∧
            run namespaceStep begun synchronizeActions = some final ∧
              final.caller 0 = .idle ∧ entered.Inside 1 :=
    ⟨_, _, _, rfl, rfl, rfl, rfl, Or.inl ⟨rfl, by decide⟩⟩
  refine ⟨entered, begun, final, reached, enters, ran, ?_⟩
  refine lrcuSynchronizeNs_outwaits (quiet_of_early (.init 0 _) (by decide) ?_) reached enters ran
    ?_ inside
  · decide
  · simp [returned, CallerPc.Synchronizing]

/-- Thread `1` enters a read section at the version before the last one, and the
version wraps. -/
def enterLateActions : List NamespaceAction :=
  [.reader 1 .lockCount, .reader 1 .lockTest, .reader 1 .lockStore,
    .writer .lrcuWriteBarrierNs, .writer .lrcuWriteBarrierNs]

/-- A call that makes one pass over two threads. -/
def callOverTwo : List NamespaceAction :=
  [.caller 0] ++ passActions (.caller 0) 2 ++ [.caller 0]

/-- Once the version wraps, a caller returns beside a reader that it found inside:
the range of the pass ends before it begins. -/
theorem not_lrcuSynchronizeNs_outwaits_of_wrap :
    ¬ ∀ (workerTi : ReaderId) (ranges localRanges : Nat → LrcuRange)
      (front actions : List NamespaceAction) (entered begun final : NamespaceState)
      (c : CallerId) (barrier : Bool) (i : ReaderId),
      Meets namespaceStep HangTestFails (namespaceInit workerTi ranges)
        (front ++ .enter c barrier localRanges :: actions) →
      run namespaceStep (namespaceInit workerTi ranges) front = some entered →
      namespaceStep entered (.enter c barrier localRanges) = some begun →
      run namespaceStep begun actions = some final →
      ¬ (final.caller c).Synchronizing → entered.Inside i →
        Sometime namespaceStep (fun state => (state.lns i).counter = 0) begun actions := by
  intro outwaits
  obtain ⟨registered, reached, version, entered, ranEntered, begun, enters, final, ran, returned,
      inside, counter⟩ : ∃ registered,
      run namespaceStep (namespaceInit 0 fun _ => ⟨0, 0⟩) [.reader 1 .lrcuThreadSetNs] =
        some registered ∧ registered.version = 1 ∧
          ∃ entered, run namespaceStep { registered with version := 2 ^ 64 - 2 }
              enterLateActions = some entered ∧
            ∃ begun, namespaceStep entered (.enter 0 false fun _ => ⟨0, 0⟩) = some begun ∧
              ∃ final, run namespaceStep begun callOverTwo = some final ∧
                final.caller 0 = .idle ∧ entered.Inside 1 ∧ (begun.lns 1).counter = 1 :=
    ⟨_, rfl, rfl, _, rfl, _, rfl, _, rfl, rfl, Or.inl ⟨rfl, by decide⟩, rfl⟩
  have reaches : registered.version + (2 ^ 64 - 3) = 2 ^ 64 - 2 := by
    rw [version]
    decide
  have bumped := run_bumps registered (2 ^ 64 - 3) reaches (by decide)
  have left := outwaits 0 (fun _ => ⟨0, 0⟩) (fun _ => ⟨0, 0⟩)
    ([.reader 1 .lrcuThreadSetNs] ++
      (List.replicate (2 ^ 64 - 3) (.writer .lrcuWriteBarrierNs) ++ enterLateActions))
    callOverTwo entered begun final 0 false 1 ?_ ?_ enters ran (by simp [returned,
      CallerPc.Synchronizing]) inside
  · obtain ⟨front, back, middle, split, ranFront, left⟩ := left
    have others : Meets namespaceStep (fun _ action => ∀ own, action ≠ .reader 1 own)
        begun front := by
      refine .of_forall fun action member _ own same => ?_
      have listed : NamespaceAction.reader 1 own ∈ callOverTwo :=
        split ▸ List.mem_append_left back (same ▸ member)
      simp [callOverTwo, passActions] at listed
    have stays : (middle.lns 1).counter = 1 :=
      run_preserves_of_meets (fun state => (state.lns 1).counter = 1)
        (fun _ _ _ other counter stepped => (reader_eq_of_step stepped other).1 ▸ counter) others
        counter ranFront
    simp [stays] at left
  · refine .of_forall fun action member state => hangTestFails_of_early ?_
    simp only [List.mem_append, List.mem_cons, List.not_mem_nil, or_false] at member
    rcases member with (rfl | member | member) | rfl | member
    · decide
    · rw [List.eq_of_mem_replicate member]
      decide
    · have all : ∀ action ∈ enterLateActions, action.now < lrcuHangTimeout := by decide
      exact all action member
    · decide
    · have all : ∀ action ∈ callOverTwo, action.now < lrcuHangTimeout := by decide
      exact all action member
  · rw [run_append, reached, Option.bind_some, run_append, bumped, Option.bind_some, ranEntered]
end LightRcu
