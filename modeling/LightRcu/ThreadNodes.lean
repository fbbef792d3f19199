import LightRcu.GetSynchronizedReasons
import LightRcu.ListUnlinking

/-!
# The thread lists of a namespace in memory

`__lrcu_get_synchronized` walks `ns->threads` and `ns->hung_threads` with
`lrcu_list_for_each_ptr`, and moves a node between them in the middle of a walk.
This file follows the links of the nodes through both loops, with the calls of
`lrcu_rangetree_add` and the merge behind them.  Every assertion of the pass is
an outcome without a result: those of `lrcu_list_check_loop`, and the one on the
reserved value in `lrcu_rangetree_remove_overlapping`.
-/

namespace LightRcu

/-- The loop that walks the other list. -/
def PassLoop.other : PassLoop → PassLoop
  | .threads => .hungThreads
  | .hungThreads => .threads

variable {Addr Ti : Type*}

/-- The heads `ns->threads` and `ns->hung_threads`, the nodes, and the data of
the threads. -/
structure ThreadNodes (Addr Ti : Type*) where
  next : Addr → Option Addr
  head : PassLoop → Option Addr
  info : Ti → LrcuThreadInfo

/-- One visit: the node, what was sampled of its thread, and the range that was
handed to `lrcu_rangetree_add`. -/
structure NodeVisit (Addr : Type*) where
  e : Addr
  sample : Sample
  range : Option LrcuRange

/-- A loop between two visits.  The visits are a record of what it has done, which
it never reads. -/
structure NodePass (Addr Ti : Type*) where
  nodes : ThreadNodes Addr Ti
  rbt : LrcuRangetree
  visits : List (NodeVisit Addr)

def NodePass.list (loop : PassLoop) (pass : NodePass Addr Ti) :
    (Addr → Option Addr) × Option Addr :=
  (pass.nodes.next, pass.nodes.head loop)

variable [DecidableEq Addr]

/-- `lrcu_list_unlink_next` on the list that the loop walks, and
`lrcu_list_insert` of the same node into the other one. -/
def ThreadNodes.move (debug : Bool) (fuel : Nat) (loop : PassLoop) (nodes : ThreadNodes Addr Ti)
    (e : Addr) (ePrev : Option Addr) : Option (ThreadNodes Addr Ti) :=
  (lrcuListUnlink debug fuel (nodes.next, nodes.head loop) ePrev).bind fun (next, walked) =>
    (lrcuListChecked debug fuel (lrcuListInsert next (nodes.head loop.other) e)).map
      fun (next, other) =>
        { nodes with
          next := next
          head := Function.update (Function.update nodes.head loop walked) loop.other other }

variable [DecidableEq Ti]

/-- The body of either loop.  The samples are numbered by the visits of the
loop. -/
def visitNode (debug : Bool) (fuel : Nat) (ti : Addr → Ti) (loop : PassLoop)
    (currentVersion : Nat) (samples : Nat → Sample) (pass : NodePass Addr Ti) (e : Addr)
    (ePrev : Option Addr) : Option (BodyOutcome (NodePass Addr Ti) Empty) :=
  let sample := samples pass.visits.length
  let visit := loop.visit currentVersion (pass.nodes.info (ti e)) sample
  let nodes := { pass.nodes with info := Function.update pass.nodes.info (ti e) visit.info }
  let visits := pass.visits ++ [⟨e, sample, visit.range⟩]
  -- the second loop adds its range behind the move, which no result depends on
  (addVisitRange pass.rbt visit.range).bind fun rbt =>
    if visit.moves then
      (nodes.move debug fuel loop e ePrev).map fun nodes =>
        .proceed { nodes := nodes, rbt := rbt, visits := visits }
    else
      some (.proceed { nodes := nodes, rbt := rbt, visits := visits })

/-- One of the two loops. -/
def visitNodes (debug : Bool) (fuel : Nat) (ti : Addr → Ti) (loop : PassLoop)
    (currentVersion : Nat) (samples : Nat → Sample) (nodes : ThreadNodes Addr Ti)
    (rbt : LrcuRangetree) : Option (NodePass Addr Ti) :=
  (lrcuListForEach debug (NodePass.list loop)
    (visitNode debug fuel ti loop currentVersion samples) fuel ⟨nodes, rbt, []⟩).map fun
      | .proceed pass => pass
      | .leave value => value.elim

/-- `__lrcu_get_synchronized`: both loops, one after the other, and the merge of
what they have added. -/
def lrcuGetSynchronizedNodes (debug : Bool) (fuel : Nat) (ti : Addr → Ti)
    (currentVersion : Nat) (samples : PassLoop → Nat → Sample) (nodes : ThreadNodes Addr Ti)
    (rbt : LrcuRangetree) : Option (ThreadNodes Addr Ti × LrcuRangetree) :=
  (visitNodes debug fuel ti .threads currentVersion (samples .threads) nodes rbt).bind
    fun pass =>
      (visitNodes debug fuel ti .hungThreads currentVersion (samples .hungThreads) pass.nodes
        pass.rbt).bind fun pass =>
          (lrcuRangetreeOptimize pass.rbt .merge).map fun (rbt, _) => (pass.nodes, rbt)

end LightRcu
