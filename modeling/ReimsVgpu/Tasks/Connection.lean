import Mathlib.Data.UInt
import Mathlib.Data.List.Basic

/-!
# One task's connection

The host's end, the service's end, the two serial queues between them and the host's pending
replies. The connection queue delivers the host's messages to the service and runs the connection's
end; the link's queue makes every call of the host and runs every reply.

Each section under a lock is one step, and the steps of the host, the service, the task's life and
the two queues interleave in any order. What a service's or a host's callback does in between is
itself steps of the connection. The wait of `invalidate` for the connection queue holds nothing
and is left out, as are the connection's own drop and the wrapping of a lent surface's reply.

Beside the source's fields, the state keeps a history: how many replies the host gave `send`, those
released unrun, what was handed to the link's queue, what the host ran, and the ends that are over.

## Main definitions

* `Connection`: the state, and its history.
* `Connection.send`, `Connection.invalidate`, `Connection.relayCall`, `Connection.hostLinkSend`,
  `Connection.die`, `Connection.reportDeath`, `Connection.connectionStep`, `Connection.linkStep`.
* `LinkAction`, `Connection.step`: the steps, in any order.
-/

namespace ReimsVgpu.Tasks

/-- The messages to the service, by name. -/
inductive Selector where
  | handshake
  | flushResources
  | unmapMemory
  | setObjectList
  | getComputeInfo
  | replacePhysical
  | invalidateResources
  | synchronizeResources
  | discardResources
  | heapTextureSizeAndAlign
  | deleteObject
  | deleteResource
  | execIndirect3
  | infoIndirect
  | resetRasterizationRateMap
  | setFifoEvent
  | fifoDeleted
  deriving DecidableEq, Repr

/-- The types of replies. -/
inductive ReplyType where
  | handshake
  | execIndirect3
  | result
  deriving DecidableEq, Repr

/-- The reply of a message, if it has one. -/
def Selector.replyType : Selector → Option ReplyType
  | .handshake => some .handshake
  | .execIndirect3 => some .execIndirect3
  | .setFifoEvent => none
  | _ => some .result

/-- A reply's values. -/
inductive ReplyValue where
  | handshake (result : UInt32) (pid : Int32)
  | execIndirect3 (result : UInt32) (data : Option (List UInt8)) (value : UInt32)
  | result (result : UInt32)
  deriving DecidableEq, Repr

/-- The type of a reply that takes these values. -/
def ReplyValue.type : ReplyValue → ReplyType
  | .handshake .. => .handshake
  | .execIndirect3 .. => .execIndirect3
  | .result _ => .result

/-- `ToService`: a message to the service, with what the link does not read. -/
structure ToService (S : Type*) where
  selector : Selector
  payload : S
  deriving DecidableEq, Repr

/-- `End`: how a connection ends, as the host is told. -/
inductive ConnectionEnd where
  | died
  | invalidated
  deriving DecidableEq, Repr

/-- `HostEvent`: what the link's queue runs. A reply is named by its number among those sent. -/
inductive HostEvent (M : Type*) where
  | message (m : M)
  | reply (reply : ℕ) (value : ReplyValue)
  | ended (e : ConnectionEnd)
  deriving DecidableEq, Repr

/-- `PendingReply`: a reply with its id in the table, its type, and its number among those sent. -/
structure PendingReply where
  id : UInt64
  type : ReplyType
  reply : ℕ
  deriving DecidableEq, Repr

/-- `State` of a task's life. -/
inductive TaskLife where
  | running
  | died
  | exited
  deriving DecidableEq, Repr

/-- `has_ended`. -/
def TaskLife.hasEnded : TaskLife → Bool
  | .running => false
  | _ => true

/-- A block on the connection queue. -/
inductive ConnectionBlock (S : Type*) where
  | deliver (m : ToService S)
  | ending (e : ConnectionEnd)
  deriving DecidableEq, Repr

/-- What the connection queue is in the middle of: a message for a service that was there, or an end
whose service releases its state. -/
inductive ConnectionWork (S : Type*) where
  | delivering (m : ToService S)
  | releasing (e : ConnectionEnd)
  deriving DecidableEq, Repr

/-- What the link's queue is in the middle of: an event with the host that was there, or an end the
host was told of, whose replies are not released yet, or whose host is not let go of yet. -/
inductive LinkWork (M : Type*) where
  | running (event : HostEvent M) (host : Bool)
  | releasing (e : ConnectionEnd)
  | lettingGo
  deriving DecidableEq, Repr

/-- Where the one invalidation is. -/
inductive Invalidation where
  | idle
  | begun
  | exited
  | queued
  deriving DecidableEq, Repr

/-- `Connection`, with the life it shares, and a history. -/
structure Connection (S M : Type*) where
  host : Bool := true
  service : Bool := false
  ended : Bool := false
  invalidated : Bool := false
  life : TaskLife := .running
  onDeath : Bool := true
  nextReply : UInt64 := 0
  pending : Option (List PendingReply) := some []
  connectionQueue : List (ConnectionBlock S) := []
  connectionWork : Option (ConnectionWork S) := none
  linkQueue : List (HostEvent M) := []
  linkWork : Option (LinkWork M) := none
  invalidation : Invalidation := .idle
  /-- The sends that are about to invalidate the connection. -/
  invalidates : ℕ := 0
  /-- The relays given to the service. -/
  relays : List (UInt64 × ReplyType) := []
  sent : ℕ := 0
  released : List ℕ := []
  handed : List (HostEvent M) := []
  ran : List (HostEvent M) := []
  delivered : List (ToService S) := []
  past : List ConnectionEnd := []
  deriving DecidableEq, Repr

namespace Connection

variable {S M : Type*}

/-- `serve`. -/
def serve (c : Connection S M) : Connection S M := { c with service := true }

/-- `to_host`: hands an event to the link's queue. -/
def toHost (c : Connection S M) (event : HostEvent M) : Connection S M :=
  { c with linkQueue := c.linkQueue ++ [event], handed := c.handed ++ [event] }

/-- `end_later`. -/
def endLater (c : Connection S M) (e : ConnectionEnd) : Connection S M :=
  { c with connectionQueue := c.connectionQueue ++ [.ending e] }

/-- `relay`, when a reply is sent: the relay takes its place, and the reply waits in the table, or is
released when the table is closed. -/
def relay (c : Connection S M) (type : ReplyType) : Connection S M :=
  let c' := { c with
    nextReply := c.nextReply + 1, relays := c.relays ++ [(c.nextReply, type)], sent := c.sent + 1 }
  match c.pending with
  | some table => { c' with pending := some (table ++ [⟨c.nextReply, type, c.sent⟩]) }
  | none => { c' with released := c.released ++ [c.sent] }

/-- `relay_message`. -/
def relayMessage (c : Connection S M) (m : ToService S) : Connection S M :=
  match m.selector.replyType with
  | some type => c.relay type
  | none => c

/-- A message that is dropped with its reply. -/
def dropMessage (c : Connection S M) (m : ToService S) : Connection S M :=
  match m.selector.replyType with
  | some _ => { c with sent := c.sent + 1, released := c.released ++ [c.sent] }
  | none => c

/-- `Link::send`. A send on a connection that has ended goes on to invalidate it, unless that has
begun. -/
def send (c : Connection S M) (m : ToService S) : Connection S M :=
  if c.ended then
    let c' := c.dropMessage m
    if c.invalidated then c' else { c' with invalidates := c'.invalidates + 1 }
  else
    let c' := c.relayMessage m
    { c' with connectionQueue := c'.connectionQueue ++ [.deliver m] }

/-- `Link::invalidate`, under the lock. -/
def invalidate (c : Connection S M) : Connection S M :=
  if c.invalidated then c
  else { c with invalidated := true, ended := true, invalidation := .begun }

/-- `TaskLife::exit`. -/
def exit (c : Connection S M) : Connection S M :=
  match c.life with
  | .running => { c with life := .exited }
  | _ => c

/-- `Link::invalidate`, after the lock: the task's life ends, and the end is queued. -/
def invalidateStep (c : Connection S M) : Option (Connection S M) :=
  match c.invalidation with
  | .begun => some { c.exit with invalidation := .exited }
  | .exited => some { c.endLater .invalidated with invalidation := .queued }
  | _ => none

/-- `take_pending`: the first reply with an id, and the table without it. -/
def takePending (id : UInt64) : List PendingReply → Option (PendingReply × List PendingReply)
  | [] => none
  | p :: table =>
    if p.id = id then some (p, table)
    else (takePending id table).map fun q => (q.1, p :: q.2)

/-- A relay's call: the reply is handed to the link's queue, or released where its type is not the
relay's. -/
def relayCall (c : Connection S M) (id : UInt64) (value : ReplyValue) : Connection S M :=
  if c.ended || c.life.hasEnded then c
  else
    match c.pending with
    | none => c
    | some table =>
      match takePending id table with
      | none => c
      | some (p, rest) =>
        if p.type = value.type then
          { c with pending := some rest }.toHost (.reply p.reply value)
        else { c with pending := some rest, released := c.released ++ [p.reply] }

/-- `ToHostLink::send`. -/
def hostLinkSend (c : Connection S M) (m : M) : Connection S M :=
  if c.ended || c.life.hasEnded then c else c.toHost (.message m)

/-- `die`: only the first death ends the task. -/
def die (c : Connection S M) : Connection S M :=
  match c.life with
  | .running => { c with life := .died }
  | _ => c

/-- `report_death`: the hook of a task that died runs once. -/
def reportDeath (c : Connection S M) : Connection S M :=
  if c.life = .died && c.onDeath then { c with onDeath := false }.endLater .died else c

/-- A block of the connection queue begins: `deliver` clones the service, `end` takes it. -/
def beginBlock (c : Connection S M) : ConnectionBlock S → Connection S M
  | .deliver m => if c.service then { c with connectionWork := some (.delivering m) } else c
  | .ending e => { c with service := false, connectionWork := some (.releasing e) }

/-- The rest of a block: the service gets the message while the task runs; the host is told of the
end, except of a death when it was told, or is about to be, of another end. -/
def finishBlock (c : Connection S M) : ConnectionWork S → Connection S M
  | .delivering m =>
    let c' := { c with connectionWork := none }
    if c.life.hasEnded then c' else { c' with delivered := c'.delivered ++ [m] }
  | .releasing e =>
    let c' := { c with connectionWork := none }
    if e = .died && c.ended then c' else { c' with ended := true }.toHost (.ended e)

/-- One step of the connection queue. -/
def connectionStep (c : Connection S M) : Option (Connection S M) :=
  match c.connectionWork with
  | some work => some (c.finishBlock work)
  | none =>
    match c.connectionQueue with
    | [] => none
    | block :: rest => some ({ c with connectionQueue := rest }.beginBlock block)

/-- `on_link_queue`: the event's call of the host. -/
def runEvent (c : Connection S M) (event : HostEvent M) (host : Bool) : Connection S M :=
  match event with
  | .message _ =>
    { c with linkWork := none, ran := if host then c.ran ++ [event] else c.ran }
  | .reply _ _ => { c with linkWork := none, ran := c.ran ++ [event] }
  | .ended e =>
    { c with linkWork := some (.releasing e), ran := if host then c.ran ++ [event] else c.ran }

/-- `release_pending`. -/
def releasePending (c : Connection S M) : Connection S M :=
  { c with pending := none, released := c.released ++ (c.pending.getD []).map (·.reply) }

/-- The rest of `on_link_queue`. -/
def finishEvent (c : Connection S M) : LinkWork M → Connection S M
  | .running event host => c.runEvent event host
  | .releasing .died => { c.releasePending with linkWork := none, past := c.past ++ [.died] }
  | .releasing .invalidated => { c.releasePending with linkWork := some .lettingGo }
  | .lettingGo => { c with host := false, linkWork := none, past := c.past ++ [.invalidated] }

/-- One step of the link's queue. -/
def linkStep (c : Connection S M) : Option (Connection S M) :=
  match c.linkWork with
  | some work => some (c.finishEvent work)
  | none =>
    match c.linkQueue with
    | [] => none
    | event :: rest => some { c with linkQueue := rest, linkWork := some (.running event c.host) }

end Connection

/-- The steps of a connection. -/
inductive LinkAction (S M : Type*) where
  | serve
  | send (m : ToService S)
  | invalidate
  | sendInvalidates
  | invalidateStep
  | relayCall (relay : ℕ) (value : ReplyValue)
  | hostLinkSend (m : M)
  | die
  | reportDeath
  | connectionStep
  | linkStep
  deriving DecidableEq, Repr

/-- One step; none where there is nothing to do. -/
def Connection.step {S M : Type*} (c : Connection S M) :
    LinkAction S M → Option (Connection S M)
  | .serve => some c.serve
  | .send m => some (c.send m)
  | .invalidate => some c.invalidate
  | .sendInvalidates =>
    if c.invalidates = 0 then none
    else some { c with invalidates := c.invalidates - 1 }.invalidate
  | .invalidateStep => c.invalidateStep
  | .relayCall n value =>
    match c.relays[n]? with
    | some (id, type) => if value.type = type then some (c.relayCall id value) else none
    | none => none
  | .hostLinkSend m => some (c.hostLinkSend m)
  | .die => some c.die
  | .reportDeath => some c.reportDeath
  | .connectionStep => c.connectionStep
  | .linkStep => c.linkStep

end ReimsVgpu.Tasks
