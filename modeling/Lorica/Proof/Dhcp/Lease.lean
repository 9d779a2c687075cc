import Lorica.Impl.Dhcp.Main

/-!
# What the answers of servers do to the lease

`parse_options` gives what the options of a packet say (`parseOptions_eq`), but it writes the module
state before the type of the message is known. So a packet of the right transaction that is then
passed over, or a NAK, leaves its own options behind, or the defaults where it has none
(`lease_faithful_iff`).

The kernel is told of an address by the acquisition only. After a renewal it has the lease of
the last ACK just if that ACK repeats what the kernel was told (`netcfg_follows_iff`).
-/

namespace Lorica.Proof.Dhcp

open Lorica.Impl.Dhcp List

/-! ## Options -/

/-- The options of a list, each with its tag and its value, and whether the list ends within one. -/
def listed : Nat → Bytes → List (UInt8 × Bytes) × Bool
  | 0, _ => ([], false)
  | _ + 1, [] => ([], false)
  | n + 1, tag :: rest =>
    if tag = 255 then ([], false)
    else if tag = 0 then listed n rest
    else
      match rest with
      | [] => ([], true)
      | olen :: body =>
        let r := listed n (body.drop olen.toNat)
        if body.length < olen.toNat then ([], true) else ((tag, body.take olen.toNat) :: r.1, r.2)

/-- The value of the last option with this tag and a fitting length. -/
def optionValue (tag : UInt8) (fits : Nat → Bool) (os : List (UInt8 × Bytes)) : Option Bytes :=
  os.reverse.findSome? fun o => if o.1 = tag ∧ fits o.2.length then some o.2 else none

/-- What a list of options says, with the defaults for what it does not name. -/
def said (os : List (UInt8 × Bytes)) : Options where
  mask := (optionValue 1 (· = 4) os).elim 0x00ffffff (word · 0)
  gateway := (optionValue 3 (4 ≤ ·) os).elim 0 (word · 0)
  dns := (optionValue 6 (4 ≤ ·) os).elim 0 (word · 0)
  hasDns := (optionValue 6 (4 ≤ ·) os).isSome
  lease := (optionValue 51 (· = 4) os).elim 3600 (ntohlWord · 0)
  serverIp := (optionValue 54 (· = 4) os).elim 0 (word · 0)

/-- The type of message. -/
def saidType (os : List (UInt8 × Bytes)) : UInt8 := (optionValue 53 (· = 1) os).elim 0 (·.getD 0 0)

theorem optionValue_append (tag t : UInt8) (fits : Nat → Bool) (os : List (UInt8 × Bytes)) (val : Bytes) :
    optionValue tag fits (os ++ [(t, val)]) =
      if t = tag ∧ fits val.length = true then some val else optionValue tag fits os := by
  rw [optionValue, reverse_append, reverse_singleton, singleton_append, findSome?_cons]
  by_cases h : t = tag ∧ fits val.length = true
  · rw [if_pos h, if_pos h]
  · rw [if_neg h, if_neg h]
    rfl

theorem parseRounds_eq (n : Nat) (bs : Bytes) (o : Options × UInt8) :
    parseRounds n bs o = (listed n bs).1.foldl (fun o p => storeOption p.1 p.2 o) o := by
  fun_induction parseRounds n bs o with
  | case7 n tag o hend hpad olen body hlen ih => simp only [listed, hend, hpad, hlen, if_false, foldl_cons, ih]
  | _ => simp_all [listed]

theorem storeOption_said (os : List (UInt8 × Bytes)) (tag : UInt8) (val : Bytes) :
    storeOption tag val (said os, saidType os) = (said (os ++ [(tag, val)]), saidType (os ++ [(tag, val)])) := by
  simp only [said, saidType, optionValue_append, decide_eq_true_eq]
  by_cases hknown : tag ∈ [1, 3, 6, 51, 53, 54]
  · simp only [mem_cons, not_mem_nil, or_false] at hknown
    rcases hknown with rfl | rfl | rfl | rfl | rfl | rfl <;> simp [storeOption] <;> split <;> simp_all
  · simp only [mem_cons, not_mem_nil, or_false, not_or] at hknown
    simp [storeOption, hknown]

/-- `parse_options` gives what the list says. -/
theorem parseOptions_eq (opts : Bytes) :
    parseOptions opts = (said (listed opts.length opts).1, saidType (listed opts.length opts).1) := by
  rw [parseOptions, parseRounds_eq]
  generalize (listed opts.length opts).1 = os
  induction os using reverseRecOn with
  | nil => rfl
  | append_singleton os o ih => rw [foldl_append, ih, foldl_cons, foldl_nil, storeOption_said]

/-- The options of a datagram. -/
def optionsIn (d : Datagram) : List (UInt8 × Bytes) × Bool := listed (d.pkt.length - optionsAt) (d.pkt.drop optionsAt)

/-- What a datagram's options say. -/
def optionsOf (d : Datagram) : Options := said (optionsIn d).1

theorem parsed_eq (c : Client) (d : Datagram) : parsed c d.pkt = { c with options := optionsOf d } := by
  rw [parsed, parseOptions_eq, length_drop, optionsOf, optionsIn]

theorem msgType_eq (d : Datagram) : msgType d.pkt = saidType (optionsIn d).1 := by
  rw [msgType, parseOptions_eq, length_drop, optionsIn]

/-! ## Steps -/

/-- The type of message that a receiving loop awaits. -/
def awaited : Phase → Option UInt8
  | .selecting _ _ => some 2
  | .requesting _ _ => some 5
  | .renewing _ => some 5
  | _ => none

/-- The datagram that a receiving loop looks into. -/
def examined (c : Client) : Event → Option Datagram
  | .received (some d) => if (awaited c.phase).isSome ∧ ignored c d.pkt = false then some d else none
  | _ => none

/-- The datagram that is taken for what was awaited. -/
def accepted (c : Client) (e : Event) : Option Datagram :=
  (examined c e).filter fun d => awaited c.phase = some (saidType (optionsIn d).1)

/-- The stored lease: the address that was offered, the one in use, and the rest. -/
structure Lease where
  offeredIp : Nat
  ip : Nat
  options : Options
deriving DecidableEq

def leaseOf (c : Client) : Lease := ⟨c.offeredIp, c.ip, c.options⟩

/-- The lease that an accepted datagram carries: an OFFER an address to ask for, and a server,
itself if it names none; an ACK the address to use. -/
def carried (c : Client) (d : Datagram) : Lease :=
  if awaited c.phase = some 2 then
    { leaseOf c with
      offeredIp := yiaddrOf d.pkt
      options := { optionsOf d with
        serverIp := if (optionsOf d).serverIp = 0 then d.source else (optionsOf d).serverIp } }
  else { leaseOf c with ip := yiaddrOf d.pkt, options := optionsOf d }

@[simp] theorem leaseOf_discoverFrom (c : Client) (n retry : Nat) :
    leaseOf (discoverFrom c n retry) = leaseOf c := by
  unfold discoverFrom; split <;> rfl

@[simp] theorem leaseOf_requestFrom (c : Client) (n retry : Nat) : leaseOf (requestFrom c n retry) = leaseOf c := by
  unfold requestFrom; split <;> rfl

@[simp] theorem leaseOf_renewFrom (c : Client) (retry : Nat) : leaseOf (renewFrom c retry) = leaseOf c := by
  unfold renewFrom; split <;> rfl

variable {c : Client} {e : Event} {d : Datagram}

theorem examined_eq_some : examined c e = some d ↔
      e = .received (some d) ∧ (awaited c.phase).isSome ∧ ignored c d.pkt = false := by
  rcases e with ⟨t, ok⟩ | ok | (_ | d') | t
  case received.some =>
    simp only [examined, Option.ite_none_right_eq_some, Option.some.injEq, Event.received.injEq]
    constructor
    · rintro ⟨h, rfl⟩; exact ⟨rfl, h⟩
    · rintro ⟨rfl, h⟩; exact ⟨h, rfl⟩
  all_goals simp [examined]

theorem accepted_eq_some :
    accepted c e = some d ↔ examined c e = some d ∧ awaited c.phase = some (msgType d.pkt) := by
  simp [accepted, msgType_eq]

theorem leaseOf_receiveOffer (n : Nat) (hi : ignored c d.pkt = false) (hp : awaited c.phase = some 2) :
    leaseOf (receiveOffer c n d) =
      if msgType d.pkt = 2 then carried c d else { leaseOf c with options := optionsOf d } := by
  simp only [receiveOffer, parsed_eq, hi, Bool.false_eq_true, if_false, carried, hp]
  split
  · rw [leaseOf_requestFrom]; rfl
  · rfl

theorem leaseOf_receiveAck (n : Nat) (hi : ignored c d.pkt = false) (hp : awaited c.phase ≠ some 2) :
    leaseOf (receiveAck c n d) =
      if msgType d.pkt = 5 then carried c d else { leaseOf c with options := optionsOf d } := by
  simp only [receiveAck, parsed_eq, hi, Bool.false_eq_true, if_false, carried]
  split
  · rfl
  · split <;> rfl

theorem leaseOf_receiveRenewal (hi : ignored c d.pkt = false) (hp : awaited c.phase ≠ some 2) :
    leaseOf (receiveRenewal c d) =
      if msgType d.pkt = 5 then carried c d else { leaseOf c with options := optionsOf d } := by
  simp only [receiveRenewal, parsed_eq, hi, Bool.false_eq_true, if_false, carried]
  split
  · rfl
  · split <;> rfl

/-- A datagram that is looked into: the lease it carries if it is accepted, and else its
options beside the stored addresses. -/
theorem leaseOf_examined (h : examined c e = some d) : leaseOf (step c e) =
      if accepted c e = some d then carried c d else { leaseOf c with options := optionsOf d } := by
  have hacc : accepted c e = some d ↔ awaited c.phase = some (msgType d.pkt) := by
    rw [accepted_eq_some]; exact and_iff_right h
  obtain ⟨rfl, hw, hi⟩ := examined_eq_some.mp h
  simp only [hacc]
  cases hp : c.phase with
  | selecting n retry =>
    have := leaseOf_receiveOffer n hi (by rw [hp]; rfl)
    simpa only [step, hp, awaited, Option.some.injEq, eq_comm] using this
  | requesting n retry =>
    have := leaseOf_receiveAck n hi (by simp [hp, awaited])
    simpa only [step, hp, awaited, Option.some.injEq, eq_comm] using this
  | renewing retry =>
    have := leaseOf_receiveRenewal hi (by simp [hp, awaited])
    simpa only [step, hp, awaited, Option.some.injEq, eq_comm] using this
  | _ => simp [hp, awaited] at hw

/-- Nothing else writes the lease. -/
theorem leaseOf_not_examined (h : examined c e = none) : leaseOf (step c e) = leaseOf c := by
  have hr : ∀ d, e = .received (some d) → (awaited c.phase).isSome → ignored c d.pkt = true := by
    intro d he hw
    by_contra hi
    have := examined_eq_some.mpr ⟨he, hw, by simpa using hi⟩
    rw [h] at this; cases this
  rcases e with ⟨t, ok⟩ | ok | (_ | d) | t
  case opened =>
    cases hp : c.phase <;> simp only [step, hp]
    split
    · exact leaseOf_discoverFrom _ _ _
    · rfl
  case sent =>
    cases ok
    · cases hp : c.phase <;> simp [step, hp]
    · cases hp : c.phase <;> simp only [step, hp] <;> rfl
  case received.none => cases hp : c.phase <;> simp [step, hp]
  case woken =>
    cases hp : c.phase <;> simp only [step, hp]
    exact leaseOf_renewFrom _ _
  case received.some =>
    have hi := hr d rfl
    cases hp : c.phase <;> simp only [hp] at hi <;> simp only [step, hp]
    · simp [receiveOffer, hi rfl]
    · simp [receiveAck, hi rfl]
    · simp [receiveRenewal, hi rfl]

/-! ## The lease -/

/-- The datagram is the one awaited, and its option list is whole. -/
def Taken (c : Client) (e : Event) (d : Datagram) : Prop :=
  accepted c e = some d ∧ (optionsIn d).2 = false

/-- The stored lease changes with the datagram that was awaited only, and to what that
carries. -/
def Faithful (c : Client) (e : Event) : Prop :=
  (∀ d, Taken c e d → leaseOf (step c e) = carried c d) ∧
    ((∀ d, ¬ Taken c e d) → leaseOf (step c e) = leaseOf c)

/-- A datagram that is looked into, and is another than the one awaited or has a broken list,
carries what is stored already. -/
def Repeats (c : Client) (e : Event) : Prop :=
  ∀ d, examined c e = some d → ¬ Taken c e d →
    (accepted c e = some d → carried c d = leaseOf c) ∧ (accepted c e ≠ some d → optionsOf d = c.options)

theorem faithful_iff (c : Client) (e : Event) : Faithful c e ↔ Repeats c e := by
  constructor
  · rintro ⟨-, hn⟩ d he ht
    have hall : ∀ d', ¬ Taken c e d' := by
      intro d' ht'
      obtain rfl : d' = d := Option.some.inj ((accepted_eq_some.mp ht'.1).1.symm.trans he)
      exact ht ht'
    have h := leaseOf_examined he
    rw [hn hall] at h
    constructor
    · intro ha; rw [if_pos ha] at h; exact h.symm
    · intro ha
      rw [if_neg ha] at h
      exact (Lease.mk.inj h).2.2.symm
  · intro hr
    refine ⟨fun d ht => ?_, fun ht => ?_⟩
    · rw [leaseOf_examined (accepted_eq_some.mp ht.1).1, if_pos ht.1]
    · cases he : examined c e with
      | none => exact leaseOf_not_examined he
      | some d =>
        obtain ⟨h1, h2⟩ := hr d he (ht d)
        rw [leaseOf_examined he]
        split
        · rename_i ha; exact h1 ha
        · rename_i ha; rw [h2 ha]; rfl

/-- In a run the lease changes with the awaited packets only, and to what they carry, exactly if
each other packet of the transaction, and each with a broken list, carries what is stored then. -/
theorem lease_faithful_iff (c : Client) (es : List Event) :
    (∀ pre e post, es = pre ++ e :: post → Faithful (run c pre) e) ↔
      ∀ pre e post, es = pre ++ e :: post → Repeats (run c pre) e := by
  simp only [faithful_iff]

/-- A reply of the transaction that a card with the address `sampleMac` begins at time 0. -/
def reply (yiaddr opts : Bytes) : Option Datagram :=
  some ⟨replicate 4 0 ++ [3, 4, 5, 6] ++ replicate 8 0 ++ yiaddr ++ replicate 220 0 ++ opts, 1⟩

def sampleMac : Bytes := [1, 2, 3, 4, 5, 6]

/-- An OFFER of 10.0.0.2 with the mask 255.255.0.0, and the request for it. -/
def offered : List Event :=
  [.opened 0 true, .sent true, .received (reply [10, 0, 0, 2] [53, 1, 2, 1, 4, 255, 255, 0, 0]), .sent true]

/-- A NAK without further options puts the defaults into the stored lease. -/
theorem nak_not_faithful :
    ¬ Faithful (run (.boot sampleMac) offered) (.received (reply [0, 0, 0, 0] [53, 1, 6, 255])) := by
  have hn : accepted (run (.boot sampleMac) offered) (.received (reply [0, 0, 0, 0] [53, 1, 6, 255])) = none := by
    decide +kernel
  intro h
  have hsame := h.2 fun d ht => by cases hn.symm.trans ht.1
  exact absurd hsame (by decide +kernel)

/-! ## The configuration of the kernel -/

/-- What an event brings the client of addresses, if it is an ACK that is accepted. -/
def ackOf (c : Client) (e : Event) : Option Netcfg :=
  if awaited c.phase = some 5 then
    (accepted c e).map fun d => ⟨yiaddrOf d.pkt, (optionsOf d).mask, (optionsOf d).gateway⟩
  else none

/-- The last ACK of a run that was accepted; `a` stands for those before it. -/
def lastAck (c : Client) (a : Option Netcfg) : List Event → Option Netcfg
  | [] => a
  | e :: es => lastAck (step c e) ((ackOf c e).or a) es

/-- The phases of a client that has a lease. -/
def HasLease : Phase → Prop
  | .bound => True
  | .renew _ => True
  | .renewing _ => True
  | _ => False

theorem run_append (c : Client) (es fs : List Event) : run c (es ++ fs) = run (run c es) fs :=
  foldl_append

theorem lastAck_append (c : Client) (a : Option Netcfg) (es fs : List Event) :
    lastAck c a (es ++ fs) = lastAck (run c es) (lastAck c a es) fs := by
  induction es generalizing c a with
  | nil => rfl
  | cons e es ih => exact ih _ _

theorem ackOf_eq_some {k : Netcfg} :
    ackOf c e = some k ↔ awaited c.phase = some 5 ∧ ∃ d, examined c e = some d ∧ msgType d.pkt = 5 ∧
      k = ⟨yiaddrOf d.pkt, (optionsOf d).mask, (optionsOf d).gateway⟩ := by
  unfold ackOf
  by_cases hp : awaited c.phase = some 5
  · simp only [hp, if_true, Option.map_eq_some_iff, accepted_eq_some, Option.some.injEq, true_and]
    constructor
    · rintro ⟨d, ⟨he, ht⟩, hk⟩; exact ⟨d, he, ht.symm, hk.symm⟩
    · rintro ⟨d, he, ht, hk⟩; exact ⟨d, ⟨he, ht.symm⟩, hk.symm⟩
  · simp [hp]

/-- An ACK of a renewal ends in the sleep, and the kernel is not told of it. -/
theorem step_renewed {k : Netcfg} {retry : Nat} (hp : c.phase = .renewing retry)
    (ha : ackOf c e = some k) : (step c e).phase = .bound ∧ (step c e).netcfg = c.netcfg := by
  obtain ⟨-, d, he, ht, -⟩ := ackOf_eq_some.mp ha
  obtain ⟨rfl, -, hi⟩ := examined_eq_some.mp he
  simp [step, hp, receiveRenewal, hi, ht, parsed]

/-- An ACK of an acquisition is applied. -/
theorem step_acquired {n retry : Nat} (hp : c.phase = .requesting n retry)
    (h : HasLease (step c e).phase) : ∃ k, ackOf c e = some k ∧ (step c e).netcfg = some k := by
  rcases e with ⟨t, ok⟩ | ok | (_ | d) | t
  case received.none =>
    simp only [step, hp, requestFrom] at h
    split at h <;> cases h
  case received.some =>
    simp only [step, hp, receiveAck] at h ⊢
    by_cases hi : ignored c d.pkt = true
    · simp [hi, hp, HasLease] at h
    · by_cases ht : msgType d.pkt = 5
      · have he : examined c (.received (some d)) = some d :=
          examined_eq_some.mpr ⟨rfl, by simp [hp, awaited], by simpa using hi⟩
        refine ⟨_, ackOf_eq_some.mpr ⟨by simp [hp, awaited], d, he, ht, rfl⟩, ?_⟩
        simp only [hi, ht, parsed_eq, if_true]
        rfl
      · simp only [hi, ht, Bool.false_eq_true, if_false] at h
        split at h <;> simp [parsed, hp, HasLease] at h
  all_goals simp [step, hp, HasLease] at h

@[simp] theorem netcfg_renewFrom (c : Client) (retry : Nat) : (renewFrom c retry).netcfg = c.netcfg := by
  unfold renewFrom; split <;> rfl

/-- A client with a lease tells the kernel nothing. -/
theorem netcfg_of_hasLease (hl : HasLease c.phase) (e : Event) : (step c e).netcfg = c.netcfg := by
  cases hp : c.phase <;> simp only [hp, HasLease] at hl
  case bound => rcases e with ⟨t, ok⟩ | ok | (_ | d) | t <;> simp [step, hp]
  case renew retry =>
    rcases e with ⟨t, ok⟩ | ok | (_ | d) | t
    case sent => cases ok <;> simp [step, hp]
    all_goals simp [step, hp]
  case renewing retry =>
    rcases e with ⟨t, ok⟩ | ok | (_ | d) | t
    case received.some =>
      simp only [step, hp, receiveRenewal]
      repeat' split
      all_goals rfl
    all_goals simp [step, hp]

@[simp] theorem not_hasLease_discoverFrom (c : Client) (n retry : Nat) :
    ¬ HasLease (discoverFrom c n retry).phase := by
  unfold discoverFrom; split <;> exact id

@[simp] theorem not_hasLease_requestFrom (c : Client) (n retry : Nat) :
    ¬ HasLease (requestFrom c n retry).phase := by
  unfold requestFrom; split <;> exact id

/-- Only an acquisition gains a lease. -/
theorem hasLease_of_step (hp : ∀ n retry, c.phase ≠ .requesting n retry)
    (h : HasLease (step c e).phase) : HasLease c.phase := by
  by_contra hl
  refine absurd h ?_
  cases hc : c.phase <;> simp only [hc, HasLease, not_true_eq_false] at hl
  case requesting n retry => exact absurd hc (hp n retry)
  case attempt n =>
    rcases e with ⟨t, ok⟩ | ok | (_ | d) | t
    case opened =>
      cases ok
      · simp [step, hc, HasLease]
      · simp [step, hc]
    all_goals simp [step, hc, HasLease]
  case discover n retry =>
    rcases e with ⟨t, ok⟩ | ok | (_ | d) | t
    case sent =>
      cases ok
      · simp [step, hc]
      · simp [step, hc, HasLease]
    all_goals simp [step, hc, HasLease]
  case selecting n retry =>
    rcases e with ⟨t, ok⟩ | ok | (_ | d) | t
    case received.none => simp [step, hc]
    case received.some =>
      simp only [step, hc, receiveOffer]
      split
      · simp [hc, HasLease]
      split
      · exact not_hasLease_requestFrom _ _ _
      · simp [parsed, hc, HasLease]
    all_goals simp [step, hc, HasLease]
  case request n retry =>
    rcases e with ⟨t, ok⟩ | ok | (_ | d) | t
    case sent =>
      cases ok
      · simp [step, hc]
      · simp [step, hc, HasLease]
    all_goals simp [step, hc, HasLease]

/-- While the client has a lease, the kernel has the addresses of the last ACK. -/
def Follows (c : Client) (a : Option Netcfg) : Prop := HasLease c.phase → c.netcfg = a

/-- An ACK of a renewal repeats what the kernel was told. -/
def Confirms (c : Client) (e : Event) : Prop :=
  ∀ retry k, c.phase = .renewing retry → ackOf c e = some k → c.netcfg = some k

theorem Follows.step {a : Option Netcfg} (h : Follows c a) (hc : Confirms c e) :
    Follows (step c e) ((ackOf c e).or a) := by
  intro hl
  by_cases hr : ∃ n retry, c.phase = .requesting n retry
  · obtain ⟨n, retry, hp⟩ := hr
    obtain ⟨k, hk, hn⟩ := step_acquired hp hl
    rw [hk, hn]; rfl
  have hl := hasLease_of_step (fun n retry hp => hr ⟨n, retry, hp⟩) hl
  rw [netcfg_of_hasLease hl]
  cases hk : ackOf c e with
  | none => exact h hl
  | some k =>
    -- an ACK is awaited in two phases, and the acquisition is done
    obtain ⟨hw, -⟩ := ackOf_eq_some.mp hk
    cases hp : c.phase <;> simp only [hp, awaited, reduceCtorEq] at hw
    case requesting n retry => exact absurd ⟨n, retry, hp⟩ hr
    case renewing retry => exact hc retry k hp hk
    case selecting => simp at hw

theorem Follows.run {a : Option Netcfg} {es : List Event} (h : Follows c a)
    (hc : ∀ pre e post, es = pre ++ e :: post → Confirms (run c pre) e) : Follows (run c es) (lastAck c a es) := by
  induction es generalizing c a with
  | nil => exact h
  | cons e es ih =>
    exact ih (h.step (hc [] e es rfl)) fun pre e' post he => hc (e :: pre) e' post (by rw [he]; rfl)

/-- Whenever a client that runs from its start sleeps with a lease, the kernel has the addresses
of the last ACK, exactly if each ACK of a renewal repeats those the kernel was told. -/
theorem netcfg_follows_iff (mac : Bytes) (es : List Event) :
    (∀ pre, pre <+: es → (run (.boot mac) pre).phase = .bound →
        (run (.boot mac) pre).netcfg = lastAck (.boot mac) none pre) ↔
      ∀ pre e post, es = pre ++ e :: post → Confirms (run (.boot mac) pre) e := by
  constructor
  · rintro h pre e post rfl retry k hp hk
    obtain ⟨hb, hn⟩ := step_renewed hp hk
    have hrun : run (.boot mac) (pre ++ [e]) = step (run (.boot mac) pre) e := run_append _ _ _
    have := h (pre ++ [e]) ⟨post, by simp⟩ (by rw [hrun, hb])
    rw [hrun, hn, lastAck_append] at this
    rw [this]
    show (ackOf _ e).or _ = some k
    rw [hk]; rfl
  · rintro h pre ⟨post, rfl⟩ hb
    have hstart : Follows (.boot mac) none := fun hl => hl.elim
    refine hstart.run (fun p e q hq => h p e (q ++ post) (by rw [hq]; simp)) ?_
    rw [hb]
    trivial

/-- A renewal with another address: the client sleeps, and the kernel keeps the old one. -/
def moved : List Event :=
  offered ++ [.received (reply [10, 0, 0, 2] [53, 1, 5, 255]), .woken 0, .sent true,
    .received (reply [10, 0, 0, 3] [53, 1, 5, 255])]

theorem netcfg_stale : (run (.boot sampleMac) moved).phase = .bound ∧
      (run (.boot sampleMac) moved).netcfg = some ⟨0x0200000a, 0x00ffffff, 0⟩ ∧
      lastAck (.boot sampleMac) none moved = some ⟨0x0300000a, 0x00ffffff, 0⟩ := by
  decide +kernel

end Lorica.Proof.Dhcp
