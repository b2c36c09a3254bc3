/-
# The controller: groups, and the commands that undo them

`CreateGroup` does not change the controller's state itself.  It builds Python commands as
strings, hands each to `debug_exec`, and records next to it the command that reverses it;
`DestroyGroup` replays the recorded commands backwards.  Here a command is a constructor of
`Command`, `Command.exec` is `debug_exec`, and `script` lists what `CreateGroup` executes and
records, in its order.

What the table operations do is not the controller's: they go to the switch driver, which
may raise.  `raises` says when, and `neverRaises` is the driver that never does.

A controller serves a `Session`: requests one at a time, with the responses of the groups
that are live.  `Session.Partitioned` is what all the bookkeeping is for -- memory, group ids,
multicast nodes and recirculation ports are each shared out among the live groups and what is
free, with nothing lost and nothing handed out twice.  The invariant behind it (`Inv`) keeps
one record per live group (`GroupVars`, the local variables its `CreateGroup` ran with): the
undo commands and the installed entries of a group are functions of its record.
-/
import NetCCL.Controller.Segments
import NetCCL.Switch.Ingress

namespace NetCCL.Controller

/-! ## 1. What the controller installs -/

def maxGroupNum : ℕ := 256
def maxWorkerNum : ℕ := 1024

/-- `ALLOC_SIZE`: the memory of every group. -/
def allocSize : ℕ := 256 * 1024

/-- `topo.json`, with its strings as the numbers they denote. -/
structure Topo where
  port : List ℕ
  ip : List ℕ
  switchIp : ℕ
  recirPort : List ℕ
  recirPort_ne : recirPort ≠ []
  recirPort_nodup : recirPort.Nodup

/-- `ip2port`. -/
def Topo.ip2port (topo : Topo) (ip : ℕ) : ℕ :=
  ((topo.ip.idxOf? ip).bind fun idx => topo.port[idx]?).getD 511

/-- The entries the controller has put into the switch. -/
structure Installed where
  recirculate : List (ℕ × ℕ)
  metadata : List (ℕ × ℕ)
  restore : List ((ℕ × ℕ) × (ℕ × ℕ))
  node : List (ℕ × (ℕ × ℕ))
  mgid : List (ℕ × List ℕ)
  regBitmap : BitVec 16 → Switch.BitmapPair

/-- The operations on the switch that the commands contain. -/
inductive TableOp
  | addRecirculate (groupId port : ℕ)
  | deleteRecirculate (groupId : ℕ)
  | addMetadata (groupId bitmapMask : ℕ)
  | deleteMetadata (groupId : ℕ)
  | addRestore (groupId rank sip dip : ℕ)
  | deleteRestore (groupId rank : ℕ)
  | addNode (node rid port : ℕ)
  | deleteNode (node : ℕ)
  | addMgid (mgid : ℕ) (nodes : List ℕ)
  | deleteMgid (mgid : ℕ)
  | clearBitmap (addrL addrR : ℕ)

/-- What a successful operation leaves. -/
def TableOp.apply (t : Installed) : TableOp → Installed
  | .addRecirculate g port => { t with recirculate := t.recirculate ++ [(g, port)] }
  | .deleteRecirculate g => { t with recirculate := t.recirculate.filter (·.1 ≠ g) }
  | .addMetadata g mask => { t with metadata := t.metadata ++ [(g, mask)] }
  | .deleteMetadata g => { t with metadata := t.metadata.filter (·.1 ≠ g) }
  | .addRestore g rank sip dip => { t with restore := t.restore ++ [((g, rank), (sip, dip))] }
  | .deleteRestore g rank => { t with restore := t.restore.filter (·.1 ≠ (g, rank)) }
  | .addNode n rid port => { t with node := t.node ++ [(n, (rid, port))] }
  | .deleteNode n => { t with node := t.node.filter (·.1 ≠ n) }
  | .addMgid m nodes => { t with mgid := t.mgid ++ [(m, nodes)] }
  | .deleteMgid m => { t with mgid := t.mgid.filter (·.1 ≠ m) }
  | .clearBitmap addrL addrR =>
    { t with regBitmap := fun a =>
        if addrL ≤ a.toNat ∧ a.toNat < addrR then ⟨0, 0⟩ else t.regBitmap a }

/-- The driver that accepts every operation. -/
def neverRaises : Installed → TableOp → Bool := fun _ _ => false

/-! ## 2. Commands -/

/-- The commands given to `debug_exec`. -/
inductive Command
  | allocSeg (index addrL addrR : ℕ)
  | freeSeg (addrL addrR : ℕ)
  | dropGroup
  | appendGroup (groupId : ℕ)
  | dropNodes (count : ℕ)
  | appendNodes (nodes : List ℕ)
  | incPort (idx : ℕ)
  | decPort (idx : ℕ)
  | table (op : TableOp)

/-- The state of `INCServicerImpl`, together with what it has installed. -/
structure Servicer where
  freeGroup : List ℕ
  freeNode : List ℕ
  recirPortCnt : List ℤ
  undo : List (ℕ × List Command)
  memseg : List Seg
  installed : Installed

/-- How a call can fail: a Python exception, or `exit(1)`. -/
inductive Failure
  | raised
  | exited
  deriving DecidableEq

/-- `debug_exec` of one command.  A command that fails changes nothing. -/
def Command.exec (raises : Installed → TableOp → Bool) (s : Servicer) :
    Command → Except Failure Servicer
  | .allocSeg index addrL addrR =>
    match Controller.allocSeg s.memseg index addrL addrR with
    | none => .error .raised
    | some memseg => .ok { s with memseg }
  | .freeSeg addrL addrR =>
    match Controller.freeSeg s.memseg addrL addrR with
    | none => .error .exited
    | some memseg => .ok { s with memseg }
  | .dropGroup => .ok { s with freeGroup := s.freeGroup.drop 1 }
  | .appendGroup g => .ok { s with freeGroup := s.freeGroup ++ [g] }
  | .dropNodes count => .ok { s with freeNode := s.freeNode.drop count }
  | .appendNodes nodes => .ok { s with freeNode := s.freeNode ++ nodes }
  | .incPort idx =>
    if idx < s.recirPortCnt.length then
      .ok { s with recirPortCnt := s.recirPortCnt.modify idx (· + 1) }
    else .error .raised
  | .decPort idx =>
    if idx < s.recirPortCnt.length then
      .ok { s with recirPortCnt := s.recirPortCnt.modify idx (· - 1) }
    else .error .raised
  | .table op =>
    if raises s.installed op then .error .raised
    else .ok { s with installed := op.apply s.installed }

/-- A sequence of commands: the state it stops in, and why if it did not finish. -/
def execAll (raises : Installed → TableOp → Bool) :
    Servicer → List Command → Servicer × Option Failure
  | s, [] => (s, none)
  | s, c :: cs =>
    match c.exec raises s with
    | .ok s' => execAll raises s' cs
    | .error e => (s, some e)

/-! ## 3. The requests -/

/-- `reinit`, on whatever an earlier controller has left in the switch. -/
def reinit (topo : Topo) (t : Installed) : Servicer :=
  let freeGroup := (List.range maxGroupNum).filter (0 < ·)
  let freeNode := (List.range maxWorkerNum).filter (0 < ·)
  { freeGroup, freeNode
    recirPortCnt := topo.recirPort.map fun _ => 0
    undo := []
    memseg := [⟨0, switchMemSize⟩]
    installed :=
      { t with
        recirculate := [], metadata := [], restore := []
        mgid := t.mgid.filter (·.1 ∉ freeGroup)
        node := t.node.filter (·.1 ∉ freeNode) } }

/-- `select_recir_port_idx`: the first index of the least count. -/
def selectRecirPortIdx (cnt : List ℤ) : ℕ := cnt.idxOf ((cnt.min?).getD 0)

/-- The local variables of `CreateGroup`. -/
structure GroupVars where
  groupid : ℕ
  segAddr : ℕ
  node : List ℕ
  recirPortIdx : ℕ
  member : List ℕ

/-- The table operations of `CreateGroup`, each with the one that undoes it. -/
def tableScript (topo : Topo) (v : GroupVars) : List (TableOp × Option TableOp) :=
  [(.addRecirculate v.groupid (topo.recirPort.getD v.recirPortIdx 0),
      some (.deleteRecirculate v.groupid)),
    (.addMetadata v.groupid (2 ^ v.member.length - 1), some (.deleteMetadata v.groupid))] ++
  (v.member.zip v.node).zipIdx.flatMap (fun ((ip, node), i) =>
    [(.addRestore v.groupid i topo.switchIp ip, some (.deleteRestore v.groupid i)),
      (.addNode node i (topo.ip2port ip), some (.deleteNode node))]) ++
  [(.addMgid v.groupid v.node, some (.deleteMgid v.groupid)),
    (.clearBitmap (v.segAddr / mtuSize) (v.segAddr / mtuSize + allocSize / mtuSize), none)]

/-- The commands `CreateGroup` executes, each with the entry of `undo_funcs` it adds. -/
def script (topo : Topo) (segIndex : ℕ) (v : GroupVars) : List (Command × Option Command) :=
  [(.allocSeg segIndex v.segAddr (v.segAddr + allocSize),
      some (.freeSeg v.segAddr (v.segAddr + allocSize))),
    (.dropGroup, some (.appendGroup v.groupid)),
    (.dropNodes v.member.length, some (.appendNodes v.node)),
    (.incPort v.recirPortIdx, some (.decPort v.recirPortIdx))] ++
  (tableScript topo v).map fun (op, undo) => (.table op, undo.map .table)

/-- `undo_funcs` at the end of `CreateGroup`. -/
def undoFuncs (topo : Topo) (v : GroupVars) : List Command := (script topo 0 v).filterMap (·.2)

/-- `CreateGroupResponse`; group 0 is the null group. -/
structure CreateGroupResponse where
  groupId : ℕ
  aggAddr : ℕ
  aggLen : ℕ
  member : List ℕ
  deriving DecidableEq

/-- The empty response. -/
def CreateGroupResponse.null : CreateGroupResponse := ⟨0, 0, 0, []⟩

/-- The response of a `CreateGroup` that ran to its end. -/
def GroupVars.response (topo : Topo) (v : GroupVars) : CreateGroupResponse :=
  ⟨v.groupid, v.segAddr / mtuSize, allocSize / mtuSize, v.member.map fun _ => topo.switchIp⟩

/-- `CreateGroup` for a request with these members, given by address.  The commands are
formatted one by one in the source; no command changes what a later one is formatted from. -/
def createGroup (topo : Topo) (raises : Installed → TableOp → Bool) (s : Servicer)
    (member : List ℕ) : Servicer × Except Failure CreateGroupResponse :=
  match fitSeg s.memseg allocSize with
  | none => (s, .error .raised)
  | some none => (s, .ok .null)
  | some (some (segIndex, segAddr)) =>
    match s.freeGroup with
    | [] => (s, .ok .null)
    | groupid :: _ =>
      if s.freeNode.length < member.length then (s, .ok .null)
      else
        let v : GroupVars :=
          { groupid, segAddr, member, node := s.freeNode.take member.length
            recirPortIdx := selectRecirPortIdx s.recirPortCnt }
        match execAll raises s ((script topo segIndex v).map (·.1)) with
        | (s, some e) => (s, .error e)
        | (s, none) =>
          ({ s with undo := s.undo.filter (·.1 ≠ groupid) ++ [(groupid, undoFuncs topo v)] },
            .ok (v.response topo))

/-- `DestroyGroup`. -/
def destroyGroup (raises : Installed → TableOp → Bool) (s : Servicer) (groupid : ℕ) :
    Servicer × Except Failure Unit :=
  match s.undo.lookup groupid with
  | none => (s, .ok ())
  | some funcs =>
    match execAll raises s funcs.reverse with
    | (s, some e) => (s, .error e)
    | (s, none) => ({ s with undo := s.undo.filter (·.1 ≠ groupid) }, .ok ())

/-! ## 4. Sessions -/

/-- The two requests. -/
inductive Request
  | create (member : List ℕ)
  | destroy (groupid : ℕ)

/-- A controller and the responses of its live groups. -/
structure Session where
  ctl : Servicer
  live : List CreateGroupResponse

/-- One request, with a driver that accepts every operation. -/
def Session.serve (topo : Topo) (s : Session) : Request → Session
  | .create member =>
    match createGroup topo neverRaises s.ctl member with
    | (ctl, .ok r) => ⟨ctl, if r.groupId = 0 then s.live else s.live ++ [r]⟩
    | (ctl, .error _) => ⟨ctl, s.live⟩
  | .destroy groupid =>
    ⟨(destroyGroup neverRaises s.ctl groupid).1, s.live.filter (·.groupId ≠ groupid)⟩

/-- A sequence of requests, from `reinit` on. -/
def Session.run (topo : Topo) (t : Installed) (reqs : List Request) : Session :=
  reqs.foldl (Session.serve topo) ⟨reinit topo t, []⟩

/-- The memory of a live group. -/
def CreateGroupResponse.seg (g : CreateGroupResponse) : Seg :=
  ⟨g.aggAddr * mtuSize, (g.aggAddr + g.aggLen) * mtuSize⟩

/-- The multicast nodes of a live group: those its multicast group lists. -/
def Session.nodes (s : Session) (g : CreateGroupResponse) : List ℕ :=
  (s.ctl.installed.mgid.lookup g.groupId).getD []

/-- The recirculation port of a live group: the one its table entry names. -/
def Session.port (s : Session) (g : CreateGroupResponse) : Option ℕ :=
  s.ctl.installed.recirculate.lookup g.groupId

/-- **The controller's resources are partitioned.** -/
structure Session.Partitioned (topo : Topo) (s : Session) : Prop where
  memory : Partition (s.live.map CreateGroupResponse.seg ++ s.ctl.memseg) switchMemSize
  sorted : Sorted s.ctl.memseg
  aligned : ∀ g ∈ s.live, allocSize ∣ g.seg.l
  groups : (s.live.map (·.groupId) ++ s.ctl.freeGroup).Perm (List.range' 1 (maxGroupNum - 1))
  nodes : (s.live.flatMap s.nodes ++ s.ctl.freeNode).Perm (List.range' 1 (maxWorkerNum - 1))
  ports : ∀ i, (h : i < topo.recirPort.length) →
    s.ctl.recirPortCnt[i]? = some ↑(s.live.countP fun g => s.port g = some topo.recirPort[i])

end NetCCL.Controller
