import XR806.Dhcp.Leases
import XR806.Dhcp.Options
import XR806.Trans.Run

/-!
# XR806.Dhcp.Server

The turns of the DHCP server (`usr_dhcpd.c`, `serverpacket.c`): a packet is received, entries of
stations that have left are dropped, and the packet is answered from the lease table.

* `leases_kept`: in every run no client and no address has two entries, and the server gives out
  addresses of its pool only.
* `lease_exclusive`: an address that was acknowledged to a client is not given to another one while
  the lease time runs that the client was told.
* `reply_options`: what `get_option` finds in a reply are the options the server meant to put there.
-/

namespace XR806
namespace Dhcp

open Trans Mem

/-! ## Packets -/

def dhcpDiscover : UInt8 := 1
def dhcpOffer : UInt8 := 2
def dhcpRequest : UInt8 := 3
def dhcpDecline : UInt8 := 4
def dhcpAck : UInt8 := 5
def dhcpNak : UInt8 := 6
def dhcpRelease : UInt8 := 7
def dhcpInform : UInt8 := 8

def bootRequest : UInt8 := 1
def bootReply : UInt8 := 2

def dhcpMagic : Nat := 0x63825363

/-- `struct dhcpMessage`, with the memory behind it as the end of `options`. -/
structure DhcpMessage where
  op : UInt8
  htype : UInt8
  hlen : UInt8
  xid : Nat
  flags : Nat
  ciaddr : Nat
  yiaddr : Nat
  siaddr : Nat
  giaddr : Nat
  chaddr : Chaddr
  sname : Bytes
  file : Bytes
  cookie : Nat
  options : Bytes

/-- The memory from `sname` on. -/
def DhcpMessage.mem (packet : DhcpMessage) : Bytes := fun a =>
  if a < 64 then packet.sname a
  else if a < 192 then packet.file (a - 64)
  else if a < 196 then (leBytes 4 packet.cookie).getD (a - 192) 0
  else packet.options (a - 196)

/-- `server_config`, with the addresses of the interface. The options come from `dhcpOptions`. -/
structure Config extends ServerConfig where
  netmask : Nat
  gw : Nat
  ipAddr : Nat
  siaddr : Nat
  sname : Option (List UInt8)
  bootFile : Option (List UInt8)
  options : List OptionString
  plain : ∀ o ∈ options, o.Plain

/-- Four bytes, copied to a number. -/
def readU32 (mem : Bytes) (ptr : Nat) : Nat :=
  (mem ptr).toNat + 256 * ((mem (ptr + 1)).toNat +
    256 * ((mem (ptr + 2)).toNat + 256 * (mem (ptr + 3)).toNat))

/-- `get_option` and the number that is copied from there, whatever the length of the option. -/
def optionU32 (packet : DhcpMessage) (code : UInt8) : Option Nat :=
  (getOption packet.mem code).map (readU32 packet.mem)

/-- `init_header`. -/
def initHeader (type : UInt8) : Option DhcpMessage :=
  (addSimpleOption (fun a => if a = 0 then dhcpEnd else 0) dhcpMessageType type.toNat).map
    fun options =>
      { op :=
          if type ∈ [dhcpDiscover, dhcpRequest, dhcpRelease, dhcpInform] then bootRequest
          else if type ∈ [dhcpOffer, dhcpAck, dhcpNak] then bootReply
          else 0
        htype := 1
        hlen := 6
        xid := 0
        flags := 0
        ciaddr := 0
        yiaddr := 0
        siaddr := 0
        giaddr := 0
        chaddr := blankChaddr
        sname := fun _ => 0
        file := fun _ => 0
        cookie := htonl dhcpMagic
        options }

/-- `strncpy` into cleared memory. -/
def strncpy (src : List UInt8) (n : Nat) : Bytes := fun a =>
  ((src.takeWhile (· ≠ 0)).take n).getD a 0

section

variable (cfg : Config)

def initPacket (oldpacket : DhcpMessage) (type : UInt8) : Option DhcpMessage := do
  let packet ← initHeader type
  let options ← addSimpleOption packet.options dhcpServerId cfg.server
  pure { packet with
    xid := oldpacket.xid
    chaddr := oldpacket.chaddr
    flags := oldpacket.flags
    giaddr := oldpacket.giaddr
    ciaddr := oldpacket.ciaddr
    options }

/-- The options of the configuration. -/
def addConfigOptions (optionptr : Bytes) : List OptionString → Option Bytes
  | [] => some optionptr
  | curr :: rest =>
    if curr.code ≠ dhcpLeaseTime then do
      let optionptr ← addOptionString optionptr curr
      addConfigOptions optionptr rest
    else addConfigOptions optionptr rest

def addBootpOptions (packet : DhcpMessage) : DhcpMessage :=
  { packet with
    siaddr := cfg.siaddr
    sname := match cfg.sname with
      | some sname => strncpy sname 63
      | none => packet.sname
    file := match cfg.bootFile with
      | some bootFile => strncpy bootFile 127
      | none => packet.file }

/-- The end of `sendOffer` and `sendACK`: the lease time, the addresses of the interface and the
options of the configuration. -/
def fillReply (packet : DhcpMessage) (leaseTimeAlign : Nat) : Option DhcpMessage := do
  let options ← addSimpleOption packet.options dhcpLeaseTime (htonl leaseTimeAlign)
  let options ← addSimpleOption options dhcpSubnet cfg.netmask
  let options ← addSimpleOption options dhcpRouter cfg.gw
  let options ← addSimpleOption options dhcpDnsServer cfg.ipAddr
  let options ← addConfigOptions options cfg.options
  pure (addBootpOptions cfg { packet with options })

/-! ## Answers -/

/-- The address that is offered, and the lease time that is left of an entry. -/
def offerAddress (oldpacket : DhcpMessage) (t : Table) : Table × Nat × Nat :=
  match (findLeaseByChaddr oldpacket.chaddr t.leases).bind (t.leases[·]?) with
  | some lease =>
    (t, lease.yiaddr, if leaseExpired t.now lease then cfg.lease else sub32 lease.expires t.now)
  | none =>
    match (optionU32 oldpacket dhcpRequestedIp).filter fun req =>
        ntohl req ≥ ntohl cfg.start && ntohl req ≤ ntohl cfg.end && assignable true req t with
    | some req => (t, req, cfg.lease)
    | none =>
      let found := findAddress cfg.toServerConfig false t
      if found.2 = 0 then
        let found := findAddress cfg.toServerConfig true found.1
        (found.1, found.2, cfg.lease)
      else (found.1, found.2, cfg.lease)

/-- The lease time of an offer; so much is left of an entry. -/
def offerLeaseTime (oldpacket : DhcpMessage) (left : Nat) : Nat :=
  let leaseTimeAlign := match optionU32 oldpacket dhcpLeaseTime with
    | some leaseTime => if ntohl leaseTime > cfg.lease then cfg.lease else ntohl leaseTime
    | none => left
  if leaseTimeAlign < cfg.minLease then cfg.lease else leaseTimeAlign

/-- `sendOffer`, and what it gives to `send_packet`; `none` is an `end_option` without end. -/
def sendOffer (oldpacket : DhcpMessage) (t : Table) : Option (Table × List DhcpMessage) := do
  let packet ← initPacket cfg oldpacket dhcpOffer
  let (t, yiaddr, left) := offerAddress cfg oldpacket t
  let packet := { packet with yiaddr }
  if yiaddr = 0 then some (t, [])
  else
    let added := t.add packet.chaddr yiaddr cfg.offerTime
    if !added.2 then some (added.1, [])
    else
      let packet ← fillReply cfg packet (offerLeaseTime cfg oldpacket left)
      some (added.1, [packet])

def sendNak (oldpacket : DhcpMessage) (t : Table) : Option (Table × List DhcpMessage) := do
  let packet ← initPacket cfg oldpacket dhcpNak
  some (t, [packet])

/-- The lease time of an acknowledgement. -/
def ackLeaseTime (oldpacket : DhcpMessage) : Nat :=
  match optionU32 oldpacket dhcpLeaseTime with
  | some leaseTime =>
    if ntohl leaseTime > cfg.lease then cfg.lease
    else if ntohl leaseTime < cfg.minLease then cfg.lease
    else ntohl leaseTime
  | none => cfg.lease

/-- `sendACK`. Whether there is room for the entry does not matter any more. -/
def sendAck (oldpacket : DhcpMessage) (yiaddr : Nat) (t : Table) :
    Option (Table × List DhcpMessage) := do
  let packet ← initPacket cfg oldpacket dhcpAck
  let packet ← fillReply cfg { packet with yiaddr } (ackLeaseTime cfg oldpacket)
  some ((t.add packet.chaddr packet.yiaddr (ackLeaseTime cfg oldpacket)).1, [packet])

def sendInform (oldpacket : DhcpMessage) (t : Table) : Option (Table × List DhcpMessage) := do
  let packet ← initPacket cfg oldpacket dhcpAck
  let options ← addConfigOptions packet.options cfg.options
  some (t, [addBootpOptions cfg { packet with options }])

/-- `DHCPREQUEST`. -/
def request (packet : DhcpMessage) (t : Table) : Option (Table × List DhcpMessage) :=
  let requested := optionU32 packet dhcpRequestedIp
  let serverId := optionU32 packet dhcpServerId
  match (findLeaseByChaddr packet.chaddr t.leases).bind (t.leases[·]?) with
  | some lease =>
    match serverId, requested with
    | some serverId, requested =>
      if serverId = cfg.server ∧ requested = some lease.yiaddr then
        sendAck cfg packet lease.yiaddr t
      else some (t, [])
    | none, some requested =>
      if lease.yiaddr = requested then sendAck cfg packet lease.yiaddr t else sendNak cfg packet t
    | none, none =>
      if lease.yiaddr = packet.ciaddr then sendAck cfg packet lease.yiaddr t
      else sendNak cfg packet t
  | none =>
    match serverId, requested with
    | none, some requested =>
      match findLeaseByYiaddr requested t.leases with
      | some i =>
        match t.leases[i]? with
        | some lease =>
          if leaseExpired t.now lease then
            some ({ t with leases := t.leases.set i { lease with chaddr := blankChaddr } }, [])
          else sendNak cfg packet t
        | none => some (t, [])
      | none => sendNak cfg packet t
    | _, _ => some (t, [])

/-- The entry of the client, changed. -/
def editLease (packet : DhcpMessage) (edit : Lease → Lease) (t : Table) : Table :=
  match findLeaseByChaddr packet.chaddr t.leases with
  | some i =>
    match t.leases[i]? with
    | some lease => { t with leases := t.leases.set i (edit lease) }
    | none => t
  | none => t

/-- The answer to a packet. -/
def serve (packet : DhcpMessage) (t : Table) : Option (Table × List DhcpMessage) :=
  match getOption packet.mem dhcpMessageType with
  | none => some (t, [])
  | some state =>
    let type := packet.mem state
    if type = dhcpDiscover then sendOffer cfg packet t
    else if type = dhcpRequest then request cfg packet t
    else if type = dhcpDecline then
      some (editLease packet (fun lease =>
        { lease with chaddr := blankChaddr, expires := u32 (t.now + cfg.declineTime) }) t, [])
    else if type = dhcpRelease then
      some (editLease packet (fun lease => { lease with expires := u32 t.now }) t, [])
    else if type = dhcpInform then sendInform cfg packet t
    else some (t, [])

end

/-! ## Runs -/

/-- The server between two turns. -/
structure Dhcpd where
  now : Nat
  leases : List Lease
  deriving DecidableEq

/-- What a turn meets: the packet, the seconds since the last turn, the stations that are connected
if they are known, and the answers of `arpping`. -/
structure TurnInput where
  packet : DhcpMessage
  elapsed : Nat
  stas : Option (List (List UInt8))
  arps : List (Bool × Nat)

def turn (cfg : Config) (e : TurnInput) (s : Dhcpd) : Option (Dhcpd × List DhcpMessage) :=
  (serve cfg e.packet ⟨s.now + e.elapsed, upgradeStaMac s.leases e.stas, e.arps⟩).map fun served =>
    (⟨served.1.now, served.1.leases⟩, served.2)

/-- `udhcpd_start`, up to its loop. -/
def udhcpdStart (now maxLeases : Nat) : Dhcpd := ⟨now, .replicate maxLeases .cleared⟩

def DhcpdStep (cfg : Config) (s : Dhcpd) (e : TurnInput × List DhcpMessage) (s' : Dhcpd) : Prop :=
  turn cfg e.1 s = some (s', e.2)

/-! ## The table in a turn -/

/-- The steps of a turn for this client between two tables. -/
abbrev Steps (cfg : ServerConfig) (client : Chaddr) (stas : Option (List (List UInt8)))
    (t t' : Table) : Prop :=
  Relation.ReflTransGen (TurnStep cfg client stas) (t.now, t.leases) (t'.now, t'.leases)

/-- The table after a search, and an address of the pool that the client may be given, or 0. -/
def Finds (cfg : ServerConfig) (client : Chaddr) (stas : Option (List (List UInt8))) (t : Table)
    (found : Table × Nat) : Prop :=
  Steps cfg client stas t found.1 ∧
    (found.2 ≠ 0 → MayGive found.1.now found.1.leases client found.2 ∧ InPool cfg found.2)

section

variable {cfg : ServerConfig} {client c : Chaddr} {stas : Option (List (List UInt8))}
  {leases : List Lease} {l : Lease} {now late addr yiaddr left i : Nat} {t : Table}
  {checkExpired : Bool}

theorem found_chaddr (h : (findLeaseByChaddr c leases).bind (leases[·]?) = some l) :
    l ∈ leases ∧ l.chaddr = c := by
  obtain ⟨i, hi, hl⟩ := Option.bind_eq_some_iff.mp h
  obtain ⟨hlt, hc, -⟩ := List.findIdx?_eq_some_iff_getElem.mp hi
  rw [List.getElem?_eq_getElem hlt] at hl
  cases hl
  exact ⟨List.getElem_mem hlt, of_decide_eq_true hc⟩

theorem htonl_bytes {a b c d : Nat} (hb : b < 256) (hc : c < 256) (hd : d < 256)
    (ha : a < 256) : htonl (a + 256 * (b + 256 * (c + 256 * d))) =
      d + 256 * (c + 256 * (b + 256 * a)) := by
  have h8 : (a + 256 * (b + 256 * (c + 256 * d))) / 2 ^ 8 = b + 256 * (c + 256 * d) := by omega
  have h16 : (a + 256 * (b + 256 * (c + 256 * d))) / 2 ^ 16 = c + 256 * d := by omega
  have h24 : (a + 256 * (b + 256 * (c + 256 * d))) / 2 ^ 24 = d := by omega
  have hdigit : ∀ x r, x < 256 → (x + 256 * r) % 256 = x := fun x r hx => by omega
  rw [htonl, h8, h16, h24, hdigit a _ ha, hdigit b _ hb, hdigit c _ hc, Nat.mod_eq_of_lt hd]
  omega

theorem htonl_ntohl (h : addr < 2 ^ 32) : ntohl (htonl addr) = addr := by
  obtain ⟨a, r, ha, rfl⟩ : ∃ a r, a < 256 ∧ addr = a + 256 * r :=
    ⟨addr % 256, addr / 256, by omega, by omega⟩
  obtain ⟨b, r, hb, rfl⟩ : ∃ b r', b < 256 ∧ r = b + 256 * r' :=
    ⟨r % 256, r / 256, by omega, by omega⟩
  obtain ⟨c, d, hc, rfl⟩ : ∃ c d, c < 256 ∧ r = c + 256 * d :=
    ⟨r % 256, r / 256, by omega, by omega⟩
  have hd : d < 256 := by omega
  rw [ntohl, htonl_bytes hb hc hd ha, htonl_bytes hc hb ha hd]

theorem MayGive.later (h : MayGive now leases c yiaddr) (hle : now ≤ late) :
    MayGive late leases c yiaddr := fun l hl heq hne =>
  (h l hl heq hne).imp id fun hlt => hlt.trans_le hle

/-- Two entries with one address are one. -/
theorem TableOk.eq_of_yiaddr {l' : Lease} (h : TableOk cfg leases) (hl : l ∈ leases)
    (hl' : l' ∈ leases) (heq : l.yiaddr = l'.yiaddr) (hne : l'.yiaddr ≠ 0) : l = l' := by
  obtain ⟨i, hi⟩ := List.mem_iff_getElem?.mp hl
  obtain ⟨j, hj⟩ := List.mem_iff_getElem?.mp hl'
  obtain rfl := h.addresses i j l l' l'.yiaddr hi hj
    (Lease.address_eq_some.mpr ⟨heq, hne⟩) (Lease.address_eq_some.mpr ⟨rfl, hne⟩)
  exact Option.some.inj (hi.symm.trans hj)

theorem TableOk.mayGive (h : TableOk cfg leases) (hl : l ∈ leases) :
    MayGive now leases l.chaddr l.yiaddr := by
  intro l' hl' heq hne
  rw [h.eq_of_yiaddr hl' hl heq hne]
  exact .inl rfl

theorem TableOk.mayGive_assignable (h : TableOk cfg t.leases)
    (hassign : assignable checkExpired addr t = true) : MayGive t.now t.leases c addr := by
  intro l hl heq hne
  unfold assignable at hassign
  split at hassign
  · rename_i hnone
    have hno := List.findIdx?_eq_none_iff.mp hnone l hl
    simp [heq] at hno
  · rename_i i hi
    obtain ⟨hlt, hyiaddr, -⟩ := List.findIdx?_eq_some_iff_getElem.mp hi
    rw [List.getElem?_eq_getElem hlt] at hassign
    simp only [Option.map_some, Option.getD_some, Bool.and_eq_true, leaseExpired,
      decide_eq_true_eq] at hassign hyiaddr
    have hsame := h.eq_of_yiaddr hl (List.getElem_mem hlt) (heq.trans hyiaddr.symm)
      (by rw [hyiaddr]; exact hne)
    rw [hsame]
    exact .inr hassign.2

variable (client stas) in
/-- `check_ip` of an address from the pool that may be given. -/
theorem checkIp_steps (hpool : InPool cfg addr) (hgive : MayGive t.now t.leases blankChaddr addr) :
    Steps cfg client stas t (checkIp cfg addr t).1 ∧
    ((checkIp cfg addr t).2 = false → (checkIp cfg addr t).1.leases = t.leases) := by
  unfold checkIp
  split
  · exact ⟨.refl, fun _ => rfl⟩
  · rename_i used elapsed rest harps
    have htick : TurnStep cfg client stas (t.now, t.leases) (t.now + elapsed, t.leases) :=
      .tick (Nat.le_add_right ..)
    cases used with
    | false => exact ⟨.single htick, fun _ => rfl⟩
    | true =>
      refine ⟨.tail (.single htick) (.change ?_), nofun⟩
      exact .add (.inr rfl) (fun _ => hpool) (fun h => absurd rfl h)
        (hgive.later (Nat.le_add_right ..))

theorem findAddressLoop_finds (h : TableOk cfg t.leases) (hstart : ntohl cfg.start ≤ addr)
    (hend : addr + left ≤ ntohl cfg.end + 1) :
    Finds cfg client stas t (findAddressLoop cfg checkExpired left addr t) := by
  induction left generalizing addr t with
  | zero => exact ⟨.refl, fun hne => absurd rfl hne⟩
  | succ left ih =>
    have hlt := cfg.end_lt
    unfold findAddressLoop
    split
    · exact ih h (by omega) (by omega)
    · split
      · rename_i hassign
        have hpool : InPool cfg (htonl addr) := by
          rw [InPool, htonl_ntohl (by omega)]
          omega
        obtain ⟨hsteps, hfree⟩ := checkIp_steps client stas hpool
          (h.mayGive_assignable hassign)
        simp only []
        cases hused : (checkIp cfg (htonl addr) t).2 with
        | true =>
          have hok := turn_ok hsteps h
          have hstart' : ntohl cfg.start ≤ addr + 1 := by omega
          obtain ⟨hrest, hgiven⟩ := ih hok hstart' (by omega)
          simp only [if_true]
          exact ⟨hsteps.trans hrest, hgiven⟩
        | false =>
          have hgive : MayGive t.now t.leases client (htonl addr) := h.mayGive_assignable hassign
          simp only [Bool.false_eq_true, if_false]
          refine ⟨hsteps, fun _ => ⟨?_, hpool⟩⟩
          rw [hfree hused]
          exact hgive.later (turn_le hsteps)
      · exact ih h (by omega) (by omega)

variable (client stas checkExpired) in
theorem findAddress_finds (h : TableOk cfg t.leases) :
    Finds cfg client stas t (findAddress cfg checkExpired t) := by
  unfold findAddress
  by_cases hle : ntohl cfg.start ≤ ntohl cfg.end + 1
  · exact findAddressLoop_finds h (Nat.le_refl _) (by omega)
  · rw [Nat.sub_eq_zero_of_le (by omega)]
    exact ⟨.refl, fun hne => absurd rfl hne⟩

/-- An entry of the client or of the address makes room for the new one. -/
theorem addLease_stored {lease : Nat} (hget : leases[i]? = some l)
    (hclear : c ≠ blankChaddr ∧ l.chaddr = c ∨ yiaddr ≠ 0 ∧ l.yiaddr = yiaddr) (hnow : 0 < now) :
    ⟨c, yiaddr, u32 (now + lease)⟩ ∈ (addLease c yiaddr lease now leases).1 := by
  have hcleared : (clearLease c yiaddr leases)[i]? = some .cleared := by
    obtain ⟨h, -⟩ | ⟨-, hc, hy⟩ := getElem?_clearLease c yiaddr hget
    · exact h
    · rcases hclear with ⟨hne, heq⟩ | ⟨hne, heq⟩
      · exact absurd heq (hc hne)
      · exact absurd heq (hy hne)
  have hsome : (oldestExpiredLease now (clearLease c yiaddr leases)).isSome :=
    oldestLoop_isSome (.inr ⟨hcleared, hnow⟩)
  obtain ⟨oldest, hold⟩ := Option.isSome_iff_exists.mp hsome
  obtain ⟨l', hl', -⟩ := oldestExpiredLease_some hold
  obtain ⟨hlt, -⟩ := List.getElem?_eq_some_iff.mp hl'
  simp only [addLease, hold]
  exact List.mem_set hlt _

end

/-! ## The options of a reply -/

def messageType (type : UInt8) : OptionString := ⟨dhcpMessageType, [type], Nat.lt_of_sub_pos (by simp)⟩

/-- An option with four bytes of data. -/
def longOption (code : UInt8) (data : Nat) : OptionString :=
  ⟨code, leBytes 4 data, by rw [length_leBytes]; decide⟩

/-- The kinds of replies; an offer and an acknowledgement tell a lease time. -/
inductive Kind where
  | offer (leaseTime : Nat)
  | ack (leaseTime : Nat)
  | nak
  | inform

def headOptions (cfg : Config) (type : UInt8) : List OptionString :=
  [messageType type, longOption dhcpServerId cfg.server]

def leaseOptions (cfg : Config) (leaseTime : Nat) : List OptionString :=
  [longOption dhcpLeaseTime (htonl leaseTime), longOption dhcpSubnet cfg.netmask,
    longOption dhcpRouter cfg.gw, longOption dhcpDnsServer cfg.ipAddr]

/-- The options of the configuration behind others, as far as there is room. -/
def withConfig (cfg : Config) (os : List OptionString) : List OptionString :=
  (cfg.options.filter fun o => o.code ≠ dhcpLeaseTime).foldl addedOption os

def Kind.options (cfg : Config) : Kind → List OptionString
  | .offer leaseTime => withConfig cfg (headOptions cfg dhcpOffer ++ leaseOptions cfg leaseTime)
  | .ack leaseTime => withConfig cfg (headOptions cfg dhcpAck ++ leaseOptions cfg leaseTime)
  | .nak => headOptions cfg dhcpNak
  | .inform => withConfig cfg (headOptions cfg dhcpAck)

/-- A packet for the client of another packet, with these options. -/
structure Replies (old : DhcpMessage) (yiaddr : Nat) (os : List OptionString)
    (packet : DhcpMessage) : Prop where
  chaddr : packet.chaddr = old.chaddr
  yiaddr : packet.yiaddr = yiaddr
  options : Area packet.options 0 os

section

variable {cfg : Config} {old packet : DhcpMessage} {mem : Bytes} {os : List OptionString}
  {code type : UInt8} {data yiaddr leaseTime : Nat}

theorem simpleOption_code {o : OptionString} (h : simpleOption code data = some o) :
    o.code = code := by
  obtain ⟨option, -, ho⟩ := Option.bind_eq_some_iff.mp h
  split at ho
  · cases ho
    rfl
  · cases ho

theorem addSimpleOption_area (h : Area mem 0 os) {o : OptionString}
    (hsimple : simpleOption code data = some o)
    (hplain : code ≠ dhcpPadding ∧ code ≠ dhcpOptionOver ∧ code ≠ dhcpEnd)
    (hroom : (optionBytes os).length + o.data.length + 3 < 308) :
    ∃ mem', addSimpleOption mem code data = some mem' ∧ Area mem' 0 (os ++ [o]) := by
  have ho : o.Plain := by
    rw [OptionString.Plain, simpleOption_code hsimple]
    exact hplain
  obtain ⟨mem', hmem', harea⟩ := h.add ho
  rw [addedOption, if_neg (by omega)] at harea
  exact ⟨mem', by rw [addSimpleOption, hsimple]; exact hmem', harea⟩

theorem addConfigOptions_area {options : List OptionString} (h : Area mem 0 os)
    (hplain : ∀ o ∈ options, o.Plain) : ∃ mem', addConfigOptions mem options = some mem' ∧
      Area mem' 0 ((options.filter fun o => o.code ≠ dhcpLeaseTime).foldl addedOption os) := by
  induction options generalizing mem os with
  | nil => exact ⟨mem, rfl, h⟩
  | cons curr rest ih =>
    have hrest : ∀ o ∈ rest, o.Plain := fun o ho => hplain o (List.mem_cons_of_mem _ ho)
    rw [addConfigOptions]
    split
    · rename_i hcode
      obtain ⟨mem₁, hmem₁, harea⟩ := h.add (hplain curr (by simp))
      obtain ⟨mem₂, hmem₂, harea₂⟩ := ih harea hrest
      rw [List.filter_cons_of_pos (by simpa using hcode)]
      exact ⟨mem₂, by simp [hmem₁, hmem₂], harea₂⟩
    · rename_i hcode
      rw [List.filter_cons_of_neg (by simpa using hcode)]
      exact ih h hrest

theorem initPacket_replies (cfg : Config) (old : DhcpMessage) (type : UInt8) :
    ∃ packet, initPacket cfg old type = some packet ∧
      Replies old 0 (headOptions cfg type) packet := by
  have hend : Area (fun a => if a = 0 then dhcpEnd else 0) 0 [] := area_empty rfl
  have htype : simpleOption dhcpMessageType type.toNat = some (messageType type) := by
    simp [simpleOption, dhcpOptions, dhcpMessageType, optionLength, messageType, leBytes]
  have hserver : simpleOption dhcpServerId cfg.server = some (longOption dhcpServerId cfg.server) :=
    rfl
  obtain ⟨mem₁, hmem₁, harea₁⟩ := addSimpleOption_area hend htype
    (by decide) (by simp [messageType])
  obtain ⟨mem₂, hmem₂, harea₂⟩ := addSimpleOption_area harea₁ hserver
    (by decide)
    (by simp [messageType, longOption, length_leBytes, OptionString.length_bytes])
  simp only [initPacket, initHeader, hmem₁, hmem₂, Option.map_some, Option.bind_eq_bind,
    Option.bind_some, Option.pure_def, Option.some.injEq, exists_eq_left']
  exact ⟨rfl, rfl, harea₂⟩

@[simp] theorem addBootpOptions_options (cfg : Config) (packet : DhcpMessage) :
    (addBootpOptions cfg packet).options = packet.options := rfl

theorem fillReply_replies (h : Replies old yiaddr (headOptions cfg type) packet) (leaseTime : Nat) :
    ∃ packet', fillReply cfg packet leaseTime = some packet' ∧ Replies old yiaddr
      (withConfig cfg (headOptions cfg type ++ leaseOptions cfg leaseTime)) packet' := by
  have hroom : ∀ n, (optionBytes (headOptions cfg type)).length + n = 9 + n := by
    simp [headOptions, messageType, longOption, length_leBytes, OptionString.length_bytes]
  obtain ⟨mem₁, hmem₁, harea⟩ := addSimpleOption_area h.options
    (show simpleOption dhcpLeaseTime (htonl leaseTime) = some (longOption _ _) from rfl)
    (by decide) (by simp [hroom, longOption, length_leBytes])
  obtain ⟨mem₂, hmem₂, harea⟩ := addSimpleOption_area harea
    (show simpleOption dhcpSubnet cfg.netmask = some (longOption _ _) from rfl)
    (by decide)
    (by simp [hroom, longOption, length_leBytes, OptionString.length_bytes])
  obtain ⟨mem₃, hmem₃, harea⟩ := addSimpleOption_area harea
    (show simpleOption dhcpRouter cfg.gw = some (longOption _ _) from rfl)
    (by decide)
    (by simp [hroom, longOption, length_leBytes, OptionString.length_bytes])
  obtain ⟨mem₄, hmem₄, harea⟩ := addSimpleOption_area harea
    (show simpleOption dhcpDnsServer cfg.ipAddr = some (longOption _ _) from rfl)
    (by decide)
    (by simp [hroom, longOption, length_leBytes, OptionString.length_bytes])
  obtain ⟨mem₅, hmem₅, harea⟩ := addConfigOptions_area harea cfg.plain
  simp only [fillReply, hmem₁, hmem₂, hmem₃, hmem₄, hmem₅, Option.bind_eq_bind,
    Option.bind_some, Option.pure_def, Option.some.injEq, exists_eq_left']
  refine ⟨h.chaddr, h.yiaddr, ?_⟩
  simpa [withConfig, leaseOptions] using harea

theorem DhcpMessage.mem_options (packet : DhcpMessage) (i : Nat) :
    packet.mem (196 + i) = packet.options i := by
  rw [DhcpMessage.mem, if_neg (by omega), if_neg (by omega), if_neg (by omega),
    Nat.add_sub_cancel_left]

/-- What `get_option` finds in a reply. -/
theorem Replies.get (h : Replies old yiaddr os packet) (hcode : code ≠ dhcpPadding ∧ code ≠ dhcpEnd) :
    FoundAt packet.mem (getOption packet.mem code) (os.find? (·.code = code)) := by
  refine Area.get (h.options.congr fun i _ => ?_) hcode
  rw [Nat.zero_add]
  exact packet.mem_options i

end

/-! ### What the client reads in a reply -/

section

variable {cfg : Config} {old packet : DhcpMessage} {mem : Bytes} {os options : List OptionString}
  {o : OptionString} {ptr x yiaddr leaseTime : Nat} {kind : Kind}

theorem foldl_addedOption (os options : List OptionString) :
    ∃ more, options.foldl addedOption os = os ++ more := by
  induction options generalizing os with
  | nil => exact ⟨[], by simp⟩
  | cons o options ih =>
    obtain ⟨more, hmore⟩ := ih (addedOption os o)
    rw [List.foldl_cons, hmore, addedOption]
    split
    · exact ⟨more, rfl⟩
    · exact ⟨[o] ++ more, by simp⟩

/-- The options of the configuration do not hide those in front of them. -/
theorem find?_withConfig {p : OptionString → Bool} (h : os.find? p = some o) :
    (withConfig cfg os).find? p = some o := by
  obtain ⟨more, hmore⟩ := foldl_addedOption os (cfg.options.filter fun o => o.code ≠ dhcpLeaseTime)
  rw [withConfig, hmore, List.find?_append, h, Option.some_or]

/-- The type that a packet says it has. -/
def DhcpMessage.type (packet : DhcpMessage) : Option UInt8 :=
  (getOption packet.mem dhcpMessageType).map packet.mem

def Kind.type : Kind → UInt8
  | .offer _ => dhcpOffer
  | .ack _ => dhcpAck
  | .nak => dhcpNak
  | .inform => dhcpAck

theorem Replies.type (h : Replies old yiaddr (kind.options cfg) packet) :
    packet.type = some kind.type := by
  have hfind : (kind.options cfg).find? (·.code = dhcpMessageType) = some (messageType kind.type) := by
    cases kind with
    | offer leaseTime => exact find?_withConfig rfl
    | ack leaseTime => exact find?_withConfig rfl
    | nak => rfl
    | inform => exact find?_withConfig rfl
  have hcode : dhcpMessageType ≠ dhcpPadding ∧ dhcpMessageType ≠ dhcpEnd := by decide
  have hget := h.get hcode
  rw [hfind] at hget
  obtain ⟨ptr, hptr, -, -, hdata, -⟩ := hget
  rw [DhcpMessage.type, hptr, Option.map_some, hdata]

theorem readU32_begins (h : Begins mem ptr (leBytes 4 x)) (hx : x < 2 ^ 32) :
    readU32 mem ptr = x := by
  simp only [leBytes, begins_cons] at h
  obtain ⟨h0, h1, h2, h3, -⟩ := h
  rw [readU32, h0, h1, show ptr + 2 = ptr + 1 + 1 from rfl, h2,
    show ptr + 3 = ptr + 1 + 1 + 1 from rfl, h3]
  simp only [UInt8.toNat_ofNat']
  omega

/-- The lease time of an acknowledgement. -/
theorem Replies.told (h : Replies old yiaddr ((Kind.ack leaseTime).options cfg) packet)
    (hlt : leaseTime < 2 ^ 32) : (optionU32 packet dhcpLeaseTime).map ntohl = some leaseTime := by
  have hfind : ((Kind.ack leaseTime).options cfg).find? (·.code = dhcpLeaseTime) =
      some (longOption dhcpLeaseTime (htonl leaseTime)) := find?_withConfig rfl
  have hcode : dhcpLeaseTime ≠ dhcpPadding ∧ dhcpLeaseTime ≠ dhcpEnd := by decide
  have hget := h.get hcode
  rw [hfind] at hget
  obtain ⟨ptr, hptr, -, -, hdata⟩ := hget
  have hread : readU32 packet.mem ptr = htonl leaseTime :=
    readU32_begins hdata (by simp only [htonl]; omega)
  rw [optionU32, hptr, Option.map_some, Option.map_some, hread, htonl_ntohl hlt]

end

/-! ## What comes of a packet -/

/-- The replies that there are to a packet. -/
def Kind.Answers (cfg : Config) (packet : DhcpMessage) : Kind → Prop
  | .offer _ => packet.type = some dhcpDiscover
  | .ack leaseTime => packet.type = some dhcpRequest ∧ leaseTime = ackLeaseTime cfg packet
  | .nak => packet.type = some dhcpRequest
  | .inform => packet.type = some dhcpInform

/-- The table after a packet, and the replies. An address that is given out may be given at that
time, and an acknowledgement is in the table for the lease time that it tells. -/
inductive Serves (cfg : Config) (packet : DhcpMessage) (stas : Option (List (List UInt8)))
    (t : Table) : Table × List DhcpMessage → Prop where
  | silent {t' : Table} (hsteps : Steps cfg.toServerConfig packet.chaddr stas t t') :
    Serves cfg packet stas t (t', [])
  | plain {kind : Kind} {reply : DhcpMessage} (hkind : kind.Answers cfg packet)
    (hreply : Replies packet 0 (kind.options cfg) reply) :
    Serves cfg packet stas t (t, [reply])
  | offer {mid t' : Table} {yiaddr leaseTime : Nat} {reply : DhcpMessage}
    (hsteps : Steps cfg.toServerConfig packet.chaddr stas t mid)
    (hgive : MayGive mid.now mid.leases packet.chaddr yiaddr)
    (hpool : yiaddr ≠ 0 → InPool cfg.toServerConfig yiaddr)
    (hrest : Steps cfg.toServerConfig packet.chaddr stas mid t')
    (hkind : (Kind.offer leaseTime).Answers cfg packet)
    (hreply : Replies packet yiaddr ((Kind.offer leaseTime).options cfg) reply) :
    Serves cfg packet stas t (t', [reply])
  | ack {t' : Table} {yiaddr leaseTime : Nat} {reply : DhcpMessage}
    (hgive : MayGive t.now t.leases packet.chaddr yiaddr)
    (hpool : yiaddr ≠ 0 → InPool cfg.toServerConfig yiaddr)
    (hrest : Steps cfg.toServerConfig packet.chaddr stas t t')
    (hkind : (Kind.ack leaseTime).Answers cfg packet)
    (hstored : 0 < t.now → yiaddr ≠ 0 →
      ⟨packet.chaddr, yiaddr, u32 (t'.now + leaseTime)⟩ ∈ t'.leases)
    (hreply : Replies packet yiaddr ((Kind.ack leaseTime).options cfg) reply) :
    Serves cfg packet stas t (t', [reply])

section

variable {cfg : Config} {packet : DhcpMessage} {stas : Option (List (List UInt8))} {t : Table}
  {l : Lease}

theorem ntohl_lt (n : Nat) : ntohl n < 2 ^ 32 := by
  simp only [ntohl, htonl]
  omega

theorem ackLeaseTime_lt (cfg : Config) (packet : DhcpMessage) :
    ackLeaseTime cfg packet < 2 ^ 32 := by
  have hlease := cfg.lease_lt
  unfold ackLeaseTime
  split
  · rename_i leaseTime _
    have htold := ntohl_lt leaseTime
    split
    · exact hlease
    · split
      · exact hlease
      · exact htold
  · exact hlease

variable (packet stas) in
theorem offerAddress_finds (h : TableOk cfg.toServerConfig t.leases) :
    Finds cfg.toServerConfig packet.chaddr stas t
      ((offerAddress cfg packet t).1, (offerAddress cfg packet t).2.1) := by
  unfold offerAddress
  split
  · rename_i lease hlease
    obtain ⟨hmem, hchaddr⟩ := found_chaddr hlease
    have hgive : MayGive t.now t.leases lease.chaddr lease.yiaddr := h.mayGive hmem
    rw [hchaddr] at hgive
    exact ⟨.refl, fun hne => ⟨hgive, h.pool lease hmem hne⟩⟩
  · split
    · rename_i req hreq
      obtain ⟨-, hreq⟩ := Option.filter_eq_some_iff.mp hreq
      simp only [ge_iff_le, Bool.and_eq_true, decide_eq_true_eq] at hreq
      exact ⟨.refl, fun _ => ⟨h.mayGive_assignable hreq.2, hreq.1⟩⟩
    · obtain ⟨hsteps, hgiven⟩ := findAddress_finds packet.chaddr stas false h
      simp only []
      split
      · obtain ⟨hsteps', hgiven'⟩ := findAddress_finds packet.chaddr stas true
          (turn_ok hsteps h)
        exact ⟨hsteps.trans hsteps', hgiven'⟩
      · exact ⟨hsteps, hgiven⟩

theorem sendOffer_serves (h : TableOk cfg.toServerConfig t.leases)
    (htype : packet.type = some dhcpDiscover) :
    ∃ served, sendOffer cfg packet t = some served ∧ Serves cfg packet stas t served := by
  obtain ⟨reply, hreply, hhead⟩ := initPacket_replies cfg packet dhcpOffer
  obtain ⟨hsteps, hgiven⟩ := offerAddress_finds packet stas h
  simp only [sendOffer, hreply, Option.bind_eq_bind, Option.bind_some]
  generalize offerAddress cfg packet t = offered at hsteps hgiven
  obtain ⟨mid, yiaddr, left⟩ := offered
  simp only []
  split
  · exact ⟨_, rfl, .silent hsteps⟩
  · rename_i hne
    obtain ⟨hgive, hpool⟩ := hgiven hne
    have hadd : Steps cfg.toServerConfig packet.chaddr stas mid
        (mid.add reply.chaddr yiaddr cfg.offerTime).1 := by
      rw [hhead.chaddr]
      exact .single (.change (.add (.inl rfl) (fun _ => hpool) (fun _ => hne) hgive))
    split
    · exact ⟨_, rfl, .silent (hsteps.trans hadd)⟩
    · have hwith : Replies packet yiaddr (headOptions cfg dhcpOffer) { reply with yiaddr } :=
        ⟨hhead.chaddr, rfl, hhead.options⟩
      obtain ⟨reply', hreply', hreplies⟩ :=
        fillReply_replies hwith (offerLeaseTime cfg packet left)
      rw [hreply']
      exact ⟨_, rfl, .offer hsteps hgive (fun _ => hpool) hadd htype hreplies⟩

/-- An acknowledgement of the client's own entry. -/
theorem sendAck_serves (h : TableOk cfg.toServerConfig t.leases)
    (htype : packet.type = some dhcpRequest) (hl : l ∈ t.leases)
    (hchaddr : l.chaddr = packet.chaddr) :
    ∃ served, sendAck cfg packet l.yiaddr t = some served ∧ Serves cfg packet stas t served := by
  obtain ⟨reply, hreply, hhead⟩ := initPacket_replies cfg packet dhcpAck
  have hwith : Replies packet l.yiaddr (headOptions cfg dhcpAck) { reply with yiaddr := l.yiaddr } :=
    ⟨hhead.chaddr, rfl, hhead.options⟩
  obtain ⟨reply', hreply', hreplies⟩ := fillReply_replies hwith (ackLeaseTime cfg packet)
  have hgive : MayGive t.now t.leases packet.chaddr l.yiaddr := hchaddr ▸ h.mayGive hl
  have hnamed : packet.chaddr ≠ blankChaddr → l.yiaddr ≠ 0 := hchaddr ▸ h.named l hl
  simp only [sendAck, hreply, hreply', Option.bind_eq_bind, Option.bind_some, hreplies.chaddr,
    hreplies.yiaddr]
  refine ⟨_, rfl, .ack hgive (h.pool l hl) ?_ ⟨htype, rfl⟩ ?_ hreplies⟩
  · exact .single (.change (.add (.inl rfl) (h.pool l hl) hnamed hgive))
  · intro hnow hne
    obtain ⟨i, hi⟩ := List.mem_iff_getElem?.mp hl
    exact addLease_stored hi (.inr ⟨hne, rfl⟩) hnow

theorem sendNak_serves (htype : packet.type = some dhcpRequest) :
    ∃ served, sendNak cfg packet t = some served ∧ Serves cfg packet stas t served := by
  obtain ⟨reply, hreply, hhead⟩ := initPacket_replies cfg packet dhcpNak
  simp only [sendNak, hreply, Option.bind_eq_bind, Option.bind_some]
  exact ⟨_, rfl, .plain (show Kind.nak.Answers cfg packet from htype) hhead⟩

theorem sendInform_serves (htype : packet.type = some dhcpInform) :
    ∃ served, sendInform cfg packet t = some served ∧ Serves cfg packet stas t served := by
  obtain ⟨reply, hreply, hhead⟩ := initPacket_replies cfg packet dhcpAck
  obtain ⟨mem, hmem, harea⟩ := addConfigOptions_area hhead.options cfg.plain
  simp only [sendInform, hreply, hmem, Option.bind_eq_bind, Option.bind_some]
  exact ⟨_, rfl, .plain (show Kind.inform.Answers cfg packet from htype)
    ⟨hhead.chaddr, hhead.yiaddr, harea⟩⟩

theorem request_serves (h : TableOk cfg.toServerConfig t.leases)
    (htype : packet.type = some dhcpRequest) :
    ∃ served, request cfg packet t = some served ∧ Serves cfg packet stas t served := by
  unfold request
  simp only []
  split
  · rename_i lease hlease
    obtain ⟨hmem, hchaddr⟩ := found_chaddr hlease
    split
    · split
      · exact sendAck_serves h htype hmem hchaddr
      · exact ⟨_, rfl, .silent .refl⟩
    · split
      · exact sendAck_serves h htype hmem hchaddr
      · exact sendNak_serves htype
    · split
      · exact sendAck_serves h htype hmem hchaddr
      · exact sendNak_serves htype
  · split
    · split
      · split
        · rename_i lease hlease
          split
          · rename_i hexp
            refine ⟨_, rfl, .silent (.single (.change ?_))⟩
            exact .edit hlease (.inr (by simpa [leaseExpired] using hexp)) (.inr rfl)
          · exact sendNak_serves htype
        · exact ⟨_, rfl, .silent .refl⟩
      · exact sendNak_serves htype
    · exact ⟨_, rfl, .silent .refl⟩

/-- A change of the client's own entry that leaves its address alone. -/
theorem editLease_steps {edit : Lease → Lease} (hyiaddr : ∀ l, (edit l).yiaddr = l.yiaddr)
    (hchaddr : ∀ l, (edit l).chaddr = l.chaddr ∨ (edit l).chaddr = blankChaddr) :
    Steps cfg.toServerConfig packet.chaddr stas t (editLease packet edit t) := by
  unfold editLease
  split
  · rename_i i hi
    obtain ⟨hlt, hclient, -⟩ := List.findIdx?_eq_some_iff_getElem.mp hi
    split
    · rename_i lease hlease
      have hwho : lease.chaddr = packet.chaddr := by
        rw [List.getElem?_eq_getElem hlt] at hlease
        cases hlease
        exact of_decide_eq_true hclient
      refine .single (.change ?_)
      have hedit : edit lease = ⟨(edit lease).chaddr, lease.yiaddr, (edit lease).expires⟩ := by
        rw [← hyiaddr lease]
      rw [hedit]
      exact .edit hlease (.inl hwho) (hchaddr lease)
    · exact .refl
  · exact .refl

variable (packet stas) in
theorem serve_serves (h : TableOk cfg.toServerConfig t.leases) :
    ∃ served, serve cfg packet t = some served ∧ Serves cfg packet stas t served := by
  unfold serve
  split
  · exact ⟨_, rfl, .silent .refl⟩
  rename_i state hstate
  have htype : packet.type = some (packet.mem state) := by
    rw [DhcpMessage.type, hstate, Option.map_some]
  simp only []
  split
  · rename_i heq
    exact sendOffer_serves h (heq ▸ htype)
  split
  · rename_i heq
    exact request_serves h (heq ▸ htype)
  split
  · exact ⟨_, rfl, .silent (editLease_steps (fun _ => rfl) fun _ => .inr rfl)⟩
  split
  · exact ⟨_, rfl, .silent (editLease_steps (fun _ => rfl) fun _ => .inl rfl)⟩
  split
  · rename_i heq
    exact sendInform_serves (heq ▸ htype)
  · exact ⟨_, rfl, .silent .refl⟩

end

/-! ## Over whole runs -/

/-- What the server tells its clients in a turn. -/
abbrev Turn := TurnInput × List DhcpMessage

section

variable {cfg : Config} {e : TurnInput} {s s' s₁ s₂ : Dhcpd} {replies : List DhcpMessage}
  {reply : DhcpMessage} {now n : Nat} {es es' : List Turn} {c : Chaddr} {l : Lease}

/-- The table of a turn before its packet is answered. -/
def TurnInput.table (e : TurnInput) (s : Dhcpd) : Table :=
  ⟨s.now + e.elapsed, upgradeStaMac s.leases e.stas, e.arps⟩

theorem TurnInput.table_steps (e : TurnInput) (s : Dhcpd) :
    Steps cfg.toServerConfig e.packet.chaddr e.stas ⟨s.now, s.leases, []⟩ (e.table s) :=
  .tail (.single (.tick (Nat.le_add_right ..))) (.change .upgrade)

/-- In every state in which the table is in order, a packet is answered. -/
theorem turn_serves (cfg : Config) (e : TurnInput) (h : TableOk cfg.toServerConfig s.leases) :
    ∃ served, Serves cfg e.packet e.stas (e.table s) served ∧
      turn cfg e s = some (⟨served.1.now, served.1.leases⟩, served.2) := by
  have htable : TableOk cfg.toServerConfig (e.table s).leases := turn_ok (e.table_steps s) h
  obtain ⟨served, hserve, hserves⟩ := serve_serves e.packet e.stas htable
  refine ⟨served, hserves, ?_⟩
  rw [turn, ← TurnInput.table, hserve, Option.map_some]

theorem DhcpdStep.serves (hstep : DhcpdStep cfg s (e, replies) s')
    (h : TableOk cfg.toServerConfig s.leases) : ∃ t' : Table,
      Serves cfg e.packet e.stas (e.table s) (t', replies) ∧ s' = ⟨t'.now, t'.leases⟩ := by
  obtain ⟨⟨t', replies'⟩, hserves, hturn⟩ := turn_serves cfg e h
  simp only [DhcpdStep, hturn, Option.some.injEq, Prod.mk.injEq] at hstep
  obtain ⟨rfl, rfl⟩ := hstep
  exact ⟨t', hserves, rfl⟩

theorem Serves.steps {packet : DhcpMessage} {stas : Option (List (List UInt8))} {t : Table}
    {served : Table × List DhcpMessage} (h : Serves cfg packet stas t served) :
    Steps cfg.toServerConfig packet.chaddr stas t served.1 := by
  cases h with
  | silent hsteps => exact hsteps
  | plain _ _ => exact .refl
  | offer hsteps _ _ hrest _ _ => exact hsteps.trans hrest
  | ack _ _ hrest _ _ _ => exact hrest

theorem DhcpdStep.steps (hstep : DhcpdStep cfg s (e, replies) s')
    (h : TableOk cfg.toServerConfig s.leases) :
    Relation.ReflTransGen (TurnStep cfg.toServerConfig e.packet.chaddr e.stas) (s.now, s.leases)
      (s'.now, s'.leases) := by
  obtain ⟨t', hserves, rfl⟩ := hstep.serves h
  exact (e.table_steps s).trans hserves.steps

/-- A reply gives an address that may be given, at some time of the turn. -/
theorem DhcpdStep.gives (hstep : DhcpdStep cfg s (e, replies) s')
    (h : TableOk cfg.toServerConfig s.leases) (hreply : reply ∈ replies) (hne : reply.yiaddr ≠ 0) :
    InPool cfg.toServerConfig reply.yiaddr ∧ ∃ mid : Nat × List Lease, mid.1 ≤ s'.now ∧
      Relation.ReflTransGen (TurnStep cfg.toServerConfig e.packet.chaddr e.stas) (s.now, s.leases)
        mid ∧ MayGive mid.1 mid.2 e.packet.chaddr reply.yiaddr := by
  obtain ⟨t', hserves, rfl⟩ := hstep.serves h
  cases hserves with
  | silent _ => cases hreply
  | plain _ hr =>
    cases List.mem_singleton.mp hreply
    exact absurd hr.yiaddr hne
  | offer hsteps hgive hpool hrest _ hr =>
    cases List.mem_singleton.mp hreply
    rw [← hr.yiaddr] at hgive hpool
    exact ⟨hpool hne, _, turn_le hrest, (e.table_steps s).trans hsteps, hgive⟩
  | ack hgive hpool hrest _ _ hr =>
    cases List.mem_singleton.mp hreply
    rw [← hr.yiaddr] at hgive hpool
    exact ⟨hpool hne, _, turn_le hrest, e.table_steps s, hgive⟩

theorem tableOk_start : TableOk cfg.toServerConfig (udhcpdStart now n).leases where
  clients := by
    intro i j a b k ha _ hka _
    obtain rfl := List.eq_of_mem_replicate (List.mem_of_getElem? ha)
    cases hka
  addresses := by
    intro i j a b k ha _ hka _
    obtain rfl := List.eq_of_mem_replicate (List.mem_of_getElem? ha)
    cases hka
  pool := by
    intro l hl hne
    obtain rfl := List.eq_of_mem_replicate hl
    exact absurd rfl hne
  named := by
    intro l hl hne
    obtain rfl := List.eq_of_mem_replicate hl
    exact absurd rfl hne

theorem DhcpdStep.ok (hstep : DhcpdStep cfg s (e, replies) s')
    (h : TableOk cfg.toServerConfig s.leases) : TableOk cfg.toServerConfig s'.leases :=
  turn_ok (hstep.steps h) h

/-- Whatever packets come, no client and no address gets two entries, and the addresses that are
given out are from the pool. -/
theorem leases_kept (h : Run (DhcpdStep cfg) (udhcpdStart now n) es s) :
    TableOk cfg.toServerConfig s.leases ∧
      ∀ e ∈ es, ∀ reply ∈ e.2, reply.yiaddr ≠ 0 → InPool cfg.toServerConfig reply.yiaddr := by
  refine h.labels (I := fun s => TableOk cfg.toServerConfig s.leases) tableOk_start ?_
  rintro s ⟨e, replies⟩ s' hok hstep
  exact ⟨hstep.ok hok, fun reply hreply hne => (hstep.gives hok hreply hne).1⟩

theorem now_le (h : Run (DhcpdStep cfg) s es s') (hok : TableOk cfg.toServerConfig s.leases) :
    s.now ≤ s'.now := by
  induction h with
  | nil => exact Nat.le_refl _
  | cons hstep _ ih => exact (turn_le (hstep.steps hok)).trans (ih (hstep.ok hok))

/-- The turns of other clients, in which the client `c` is still connected. -/
def OtherTurn (c : Chaddr) (_ : Dhcpd) (e : Turn) : Prop :=
  e.1.packet.chaddr ≠ c ∧ Connected e.1.stas c

theorem entry_exclusive (h : Run (Guarded (DhcpdStep cfg) (OtherTurn l.chaddr)) s es s')
    (hok : TableOk cfg.toServerConfig s.leases) (hl : l ∈ s.leases)
    (hblank : l.chaddr ≠ blankChaddr) (hne : l.yiaddr ≠ 0) (htill : s'.now ≤ l.expires) :
    ∀ e ∈ es, ∀ reply ∈ e.2, reply.yiaddr ≠ l.yiaddr := by
  induction h with
  | nil => exact nofun
  | @cons s s₁ s' e es hstep hrest ih =>
    obtain ⟨e, replies⟩ := e
    obtain ⟨⟨hother, hconnected⟩, hstep⟩ := hstep
    have hnow : s₁.now ≤ s'.now := now_le (hrest.mono fun _ _ _ h => h.2) (hstep.ok hok)
    have hkeeps : l ∈ s₁.leases := turn_keeps (hstep.steps hok) hl (hnow.trans htill) hother.symm
      hblank hconnected
    refine List.forall_mem_cons.mpr ⟨?_, ih (hstep.ok hok) hkeeps htill⟩
    intro reply hreply heq
    obtain ⟨-, mid, hmid, hsteps, hgive⟩ := hstep.gives hok hreply (by rw [heq]; exact hne)
    have hle : mid.1 ≤ l.expires := hmid.trans (hnow.trans htill)
    have hmem : l ∈ mid.2 := turn_keeps hsteps hl hle hother.symm hblank hconnected
    rcases hgive l hmem heq.symm (by rw [heq]; exact hne) with hsame | hexp
    · exact hother hsame.symm
    · omega

/-- A turn, with what `f` reads in the replies. -/
theorem exists_dhcpdStep {β : Type} {f : DhcpMessage → β} {bs : List β}
    (h : (turn cfg e s).map (fun r => (r.1, r.2.map f)) = some (s', bs)) :
    ∃ replies, DhcpdStep cfg s (e, replies) s' ∧ replies.map f = bs := by
  obtain ⟨⟨s₁, replies⟩, hturn, heq⟩ := Option.map_eq_some_iff.mp h
  cases heq
  exact ⟨replies, hturn, rfl⟩

/-- A client that was given an address and a lease time, as it reads them in the reply, has the address
for itself until that time is over: in the turns of the other clients no reply gives it again, as long
as the client stays connected. The server's clock is not zero and its 32 bits are enough. -/
theorem lease_exclusive {told : Nat} (hnow : 0 < now)
    (hbefore : Run (DhcpdStep cfg) (udhcpdStart now n) es s)
    (hstep : DhcpdStep cfg s (e, replies) s₁) (hreply : reply ∈ replies)
    (hack : reply.type = some dhcpAck)
    (hgiven : reply.yiaddr ≠ 0) (hclient : e.packet.chaddr ≠ blankChaddr)
    (htold : (optionU32 reply dhcpLeaseTime).map ntohl = some told)
    (hafter : Run (Guarded (DhcpdStep cfg) (OtherTurn e.packet.chaddr)) s₁ es' s₂)
    (htill : s₂.now ≤ s₁.now + told) (hclock : s₁.now + told < 2 ^ 32) :
    ∀ e' ∈ es', ∀ reply' ∈ e'.2, reply'.yiaddr ≠ reply.yiaddr := by
  have hok : TableOk cfg.toServerConfig s.leases := (leases_kept hbefore).1
  have hpast : 0 < s.now := Nat.lt_of_lt_of_le hnow (now_le hbefore tableOk_start)
  have hok₁ : TableOk cfg.toServerConfig s₁.leases := hstep.ok hok
  obtain ⟨t', hserves, rfl⟩ := hstep.serves hok
  cases hserves with
  | silent _ => cases hreply
  | plain _ hr =>
    cases List.mem_singleton.mp hreply
    exact absurd hr.yiaddr hgiven
  | offer _ _ _ _ hkind hr =>
    cases List.mem_singleton.mp hreply
    rw [hr.type] at hack
    cases hack
  | @ack _ yiaddr leaseTime _ hgive hpool hrest hkind hstored hr =>
    cases List.mem_singleton.mp hreply
    have hyiaddr := hr.yiaddr
    subst hyiaddr
    have hlt : leaseTime < 2 ^ 32 := hkind.2 ▸ ackLeaseTime_lt cfg e.packet
    have htime := (hr.told hlt).symm.trans htold
    cases htime
    have hentry := hstored (Nat.lt_of_lt_of_le hpast (Nat.le_add_right ..)) hgiven
    rw [u32, Nat.mod_eq_of_lt hclock] at hentry
    exact entry_exclusive hafter hok₁ hentry hclient hgiven htill

end

/-- A pool of one address. -/
def smallConfig : Config where
  server := htonl 0xC0A83301
  start := htonl 0xC0A83302
  «end» := htonl 0xC0A83302
  lease := 3600
  declineTime := 3600
  conflictTime := 3600
  offerTime := 60
  minLease := 60
  end_lt := by decide
  lease_lt := by decide
  netmask := htonl 0xFFFFFF00
  gw := htonl 0xC0A83301
  ipAddr := htonl 0xC0A83301
  siaddr := 0
  sname := none
  bootFile := none
  options := []
  plain := nofun

def stationChaddr (station : UInt8) : Chaddr := blankChaddr.set 0 station

/-- A packet of a client, a second after the last one. -/
def clientTurn (station : UInt8) (options : List UInt8) : TurnInput where
  packet :=
    { op := bootRequest, htype := 1, hlen := 6, xid := 1, flags := 0, ciaddr := 0, yiaddr := 0
      siaddr := 0, giaddr := 0, chaddr := stationChaddr station, sname := fun _ => 0
      file := fun _ => 0, cookie := htonl dhcpMagic, options := fun a => options.getD a 0 }
  elapsed := 1
  stas := none
  arps := []

def discover (station : UInt8) : TurnInput := clientTurn station [53, 1, 1, 255]

/-- The request for the address of the pool. -/
def select (station : UInt8) : TurnInput :=
  clientTurn station [53, 1, 3, 50, 4, 192, 168, 51, 2, 54, 4, 192, 168, 51, 1, 255]

/-- The server when the client has got the address. -/
def leased (station : UInt8) : Dhcpd := ⟨3, [⟨stationChaddr station, htonl 0xC0A83302, 3603⟩]⟩

theorem exists_offer : ∃ replies, DhcpdStep smallConfig (udhcpdStart 1 1) (discover 7, replies)
    ⟨2, [⟨stationChaddr 7, htonl 0xC0A83302, 62⟩]⟩ ∧
    replies.map DhcpMessage.yiaddr = [htonl 0xC0A83302] :=
  exists_dhcpdStep (by decide +kernel)

theorem leases_kept_small : ∃ replies : List DhcpMessage, replies.map DhcpMessage.yiaddr = [htonl 0xC0A83302] ∧
    ∀ reply ∈ replies, reply.yiaddr ≠ 0 → InPool smallConfig.toServerConfig reply.yiaddr := by
  obtain ⟨replies, hstep, hoffer⟩ := exists_offer
  exact ⟨replies, hoffer, (leases_kept (.single hstep)).2 _ (List.mem_singleton.mpr rfl)⟩

/-- The second client gets nothing. -/
theorem lease_exclusive_small : ∃ replies, DhcpdStep smallConfig (leased 7) (discover 8, replies)
    (leased 7 |> fun s => { s with now := 4 }) ∧
    ∀ reply ∈ replies, reply.yiaddr ≠ htonl 0xC0A83302 := by
  obtain ⟨offers, hoffer, -⟩ := exists_offer
  obtain ⟨acks, hack, hread⟩ : ∃ replies, DhcpdStep smallConfig
      ⟨2, [⟨stationChaddr 7, htonl 0xC0A83302, 62⟩]⟩ (select 7, replies) (leased 7) ∧
      (replies.map fun reply =>
        (reply.type, reply.yiaddr, (optionU32 reply dhcpLeaseTime).map ntohl)) =
        [(some dhcpAck, htonl 0xC0A83302, some 3600)] := exists_dhcpdStep (by decide +kernel)
  obtain ⟨others, hother, -⟩ : ∃ replies, DhcpdStep smallConfig (leased 7) (discover 8, replies)
      { leased 7 with now := 4 } ∧ replies.map DhcpMessage.yiaddr = [] :=
    exists_dhcpdStep (by decide +kernel)
  obtain ⟨ack, rfl, hack'⟩ := List.map_eq_singleton_iff.mp hread
  obtain ⟨htype, hyiaddr, htold⟩ : ack.type = some dhcpAck ∧ ack.yiaddr = htonl 0xC0A83302 ∧
      (optionU32 ack dhcpLeaseTime).map ntohl = some 3600 := by
    simpa using hack'
  refine ⟨others, hother, ?_⟩
  have hturn : OtherTurn (stationChaddr 7) (leased 7) (discover 8, others) :=
    ⟨show stationChaddr 8 ≠ stationChaddr 7 by decide, fun _ h => nomatch h⟩
  rw [← hyiaddr]
  exact lease_exclusive (by decide) (.single hoffer) hack (by simp) htype
    (by rw [hyiaddr]; decide) (by decide) htold
    (.single ⟨hturn, hother⟩) (by decide) (by decide) _ (List.mem_singleton.mpr rfl)

section

variable {cfg : Config} {s : Dhcpd} {now n : Nat} {es : List Turn}

/-- A turn always comes to an end, and a client finds in a reply the options that belong to its kind:
for each code the first one that had room, as a whole, and no other. -/
theorem reply_options (cfg : Config) (h : Run (DhcpdStep cfg) (udhcpdStart now n) es s)
    (e : TurnInput) : ∃ s' replies, turn cfg e s = some (s', replies) ∧
      ∀ reply ∈ replies, ∃ kind : Kind, kind.Answers cfg e.packet ∧
        ∀ code, code ≠ dhcpPadding ∧ code ≠ dhcpEnd → FoundAt reply.mem
          (getOption reply.mem code) ((kind.options cfg).find? (·.code = code)) := by
  obtain ⟨⟨t', replies⟩, hserves, hturn⟩ := turn_serves cfg e (leases_kept h).1
  refine ⟨_, replies, hturn, fun reply hreply => ?_⟩
  cases hserves with
  | silent _ => cases hreply
  | plain hkind hr =>
    cases List.mem_singleton.mp hreply
    exact ⟨_, hkind, fun code hcode => hr.get hcode⟩
  | offer _ _ _ _ hkind hr =>
    cases List.mem_singleton.mp hreply
    exact ⟨_, hkind, fun code hcode => hr.get hcode⟩
  | ack _ _ _ hkind _ hr =>
    cases List.mem_singleton.mp hreply
    exact ⟨_, hkind, fun code hcode => hr.get hcode⟩

end

theorem reply_options_small : ∃ s' replies,
    turn smallConfig (select 7) ⟨2, [⟨stationChaddr 7, htonl 0xC0A83302, 62⟩]⟩ =
      some (s', replies) ∧ ∀ reply ∈ replies, ∃ kind : Kind,
        kind.Answers smallConfig (select 7).packet ∧
        ∀ code, code ≠ dhcpPadding ∧ code ≠ dhcpEnd → FoundAt reply.mem
          (getOption reply.mem code) ((kind.options smallConfig).find? (·.code = code)) := by
  obtain ⟨offers, hoffer, -⟩ := exists_offer
  exact reply_options smallConfig (.single hoffer) (select 7)

end Dhcp
end XR806
