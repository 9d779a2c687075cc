import Lorica.Framework.CString

/-!
# dhcp: `main.c`

The client is a state machine that the answers of the kernel drive: sent packets, received
ones, timers. A phase is a place of the source where such an answer is awaited, so the loops
of `try_acquire`, `try_renew` and `main` are the cycles of `step`. What is printed is left out,
and so are the options of sent packets, which no answer of the client depends on.

Numbers of 32 bits are natural numbers; those in network byte order are read as the machine
reads them, the low byte first.
-/

namespace Lorica.Impl.Dhcp

/-- Four bytes as `memcpy` puts them into a number. -/
def word (bs : Bytes) (i : Nat) : Nat :=
  (bs.getD i 0).toNat + 2 ^ 8 * (bs.getD (i + 1) 0).toNat + 2 ^ 16 * (bs.getD (i + 2) 0).toNat +
    2 ^ 24 * (bs.getD (i + 3) 0).toNat

/-- `ntohl` of such a number. -/
def ntohlWord (bs : Bytes) (i : Nat) : Nat :=
  (bs.getD (i + 3) 0).toNat + 2 ^ 8 * (bs.getD (i + 2) 0).toNat + 2 ^ 16 * (bs.getD (i + 1) 0).toNat +
    2 ^ 24 * (bs.getD i 0).toNat

/-! ## Options -/

/-- The module state that `parse_options` writes. -/
structure Options where
  mask : Nat
  gateway : Nat
  dns : Nat
  hasDns : Bool
  lease : Nat
  serverIp : Nat
deriving DecidableEq

/-- What stands there before the first option; the mask is `htonl(0xffffff00)`. -/
def Options.default : Options := ⟨0x00ffffff, 0, 0, false, 3600, 0⟩

/-- One option, with the message type so far. -/
def storeOption (tag : UInt8) (val : Bytes) (o : Options × UInt8) : Options × UInt8 :=
  if tag = 1 then
    if val.length = 4 then ({ o.1 with mask := word val 0 }, o.2) else o
  else if tag = 3 then
    if 4 ≤ val.length then ({ o.1 with gateway := word val 0 }, o.2) else o
  else if tag = 6 then
    if 4 ≤ val.length then ({ o.1 with dns := word val 0, hasDns := true }, o.2) else o
  else if tag = 51 then
    if val.length = 4 then ({ o.1 with lease := ntohlWord val 0 }, o.2) else o
  else if tag = 53 then
    if val.length = 1 then (o.1, val.getD 0 0) else o
  else if tag = 54 then
    if val.length = 4 then ({ o.1 with serverIp := word val 0 }, o.2) else o
  else o

/-- The loop of `parse_options` over what is left of the options; each round takes a byte at
least, so that as many rounds as there are bytes are enough. -/
def parseRounds : Nat → Bytes → Options × UInt8 → Options × UInt8
  | 0, _, o => o
  | _ + 1, [], o => o
  | n + 1, tag :: rest, o =>
    if tag = 255 then o
    else if tag = 0 then parseRounds n rest o
    else
      match rest with
      | [] => o
      | olen :: body =>
        if body.length < olen.toNat then o
        else parseRounds n (body.drop olen.toNat) (storeOption tag (body.take olen.toNat) o)

/-- `parse_options`: the new module state, and the message type. -/
def parseOptions (opts : Bytes) : Options × UInt8 := parseRounds opts.length opts (.default, 0)

/-! ## Packets -/

/-- The offset of the options in a packet. -/
def optionsAt : Nat := 240

def xidOf (pkt : Bytes) : Nat := ntohlWord pkt 4

def yiaddrOf (pkt : Bytes) : Nat := word pkt 16

/-- A datagram that was received, cut to the size of the buffer, and the address it came from. -/
structure Datagram where
  pkt : Bytes
  source : Nat
deriving DecidableEq

/-! ## The client -/

inductive Phase
  /-- the top of the loop of `main`, where the socket is opened -/
  | attempt (n : Nat)
  /-- a DISCOVER is being sent -/
  | discover (n retry : Nat)
  /-- an OFFER is awaited -/
  | selecting (n retry : Nat)
  /-- a REQUEST is being sent -/
  | request (n retry : Nat)
  /-- an ACK is awaited -/
  | requesting (n retry : Nat)
  /-- the sleep of T1 -/
  | bound
  /-- a REQUEST for the renewal is being sent -/
  | renew (retry : Nat)
  /-- the ACK of the renewal is awaited -/
  | renewing (retry : Nat)
deriving DecidableEq

/-- What the kernel was told with `SYS_NETCFG`. -/
structure Netcfg where
  ip : Nat
  mask : Nat
  gateway : Nat
deriving DecidableEq

/-- The module state, with the phase and the configuration of the kernel. -/
structure Client where
  mac : Bytes
  xid : Nat
  offeredIp : Nat
  ip : Nat
  options : Options
  phase : Phase
  netcfg : Option Netcfg
deriving DecidableEq

def maxRetries : Nat := 3

/-- The state of a new process, with the address of the card. -/
def Client.boot (mac : Bytes) : Client := ⟨mac, 0, 0, 0, ⟨0, 0, 0, false, 0, 0⟩, .attempt 0, none⟩

/-- `make_xid`, `t` being the time. -/
def makeXid (c : Client) (t : Nat) : Nat := ntohlWord c.mac 2 ^^^ t % 2 ^ 32

/-- `apply_config`. -/
def applyConfig (c : Client) : Client :=
  { c with netcfg := some ⟨c.ip, c.options.mask, c.options.gateway⟩ }

/-- The next round of the loop over the DISCOVERs, or `return 0`. -/
def discoverFrom (c : Client) (n retry : Nat) : Client :=
  if retry < maxRetries then { c with phase := .discover n retry } else { c with phase := .attempt (n + 1) }

/-- The next round of the loop over the REQUESTs, or `return 0`. -/
def requestFrom (c : Client) (n retry : Nat) : Client :=
  if retry < maxRetries then { c with phase := .request n retry } else { c with phase := .attempt (n + 1) }

/-- The next round of the loop of `try_renew`, or its failure, after which `main` starts anew. -/
def renewFrom (c : Client) (retry : Nat) : Client :=
  if retry < maxRetries then { c with phase := .renew retry } else { c with phase := .attempt 0 }

/-- What the receiving loops do not look into. -/
def ignored (c : Client) (pkt : Bytes) : Bool := pkt.length < optionsAt || xidOf pkt != c.xid

/-- A packet that is looked into: `parse_options` writes the module state. -/
def parsed (c : Client) (pkt : Bytes) : Client :=
  { c with options := (parseOptions (pkt.drop optionsAt)).1 }

def msgType (pkt : Bytes) : UInt8 := (parseOptions (pkt.drop optionsAt)).2

/-- The first receiving loop of `try_acquire`. -/
def receiveOffer (c : Client) (n : Nat) (d : Datagram) : Client :=
  if ignored c d.pkt = true then c
  else
    let c := parsed c d.pkt
    if msgType d.pkt = 2 then
      let serverIp := if c.options.serverIp = 0 then d.source else c.options.serverIp
      requestFrom { c with offeredIp := yiaddrOf d.pkt, options := { c.options with serverIp } } n 0
    else c

/-- The second one. -/
def receiveAck (c : Client) (n : Nat) (d : Datagram) : Client :=
  if ignored c d.pkt = true then c
  else
    let c := parsed c d.pkt
    if msgType d.pkt = 5 then { applyConfig { c with ip := yiaddrOf d.pkt } with phase := .bound }
    else if msgType d.pkt = 6 then { c with phase := .attempt (n + 1) }
    else c

/-- The one of `try_renew`; after an ACK `main` goes back to sleep. -/
def receiveRenewal (c : Client) (d : Datagram) : Client :=
  if ignored c d.pkt = true then c
  else
    let c := parsed c d.pkt
    if msgType d.pkt = 5 then { c with ip := yiaddrOf d.pkt, phase := .bound }
    else if msgType d.pkt = 6 then { c with phase := .attempt 0 }
    else c

/-- An answer of the kernel. -/
inductive Event
  /-- `time` and `open_udp_sock` -/
  | opened (time : Nat) (ok : Bool)
  /-- `sendto` -/
  | sent (ok : Bool)
  /-- `recvfrom`: an error or the end of its time, or a datagram -/
  | received (d : Option Datagram)
  /-- the end of the sleep, and `time` in `try_renew`: the transaction that `main` made just
  before is never used -/
  | woken (time : Nat)

/-- The client takes the answer it awaits. -/
def step (c : Client) : Event → Client
  | .opened t ok =>
    match c.phase with
    | .attempt n =>
      let c := { c with xid := makeXid c t }
      if ok = true then discoverFrom c n 0 else { c with phase := .attempt (n + 1) }
    | _ => c
  | .sent ok =>
    match c.phase with
    | .discover n retry => if ok = true then { c with phase := .selecting n retry } else discoverFrom c n (retry + 1)
    | .request n retry => if ok = true then { c with phase := .requesting n retry } else requestFrom c n (retry + 1)
    | .renew retry => if ok = true then { c with phase := .renewing retry } else renewFrom c (retry + 1)
    | _ => c
  | .received none =>
    match c.phase with
    | .selecting n retry => discoverFrom c n (retry + 1)
    | .requesting n retry => requestFrom c n (retry + 1)
    | .renewing retry => renewFrom c (retry + 1)
    | _ => c
  | .received (some d) =>
    match c.phase with
    | .selecting n _ => receiveOffer c n d
    | .requesting n _ => receiveAck c n d
    | .renewing _ => receiveRenewal c d
    | _ => c
  | .woken t =>
    match c.phase with
    | .bound => renewFrom { c with xid := makeXid c t } 0
    | _ => c

/-- A run of the client. -/
def run (c : Client) (es : List Event) : Client := es.foldl step c

end Lorica.Impl.Dhcp
