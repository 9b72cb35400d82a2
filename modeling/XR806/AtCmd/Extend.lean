import XR806.AtCmd.Config

/-!
# XR806.AtCmd.Extend

The commands that hand a text to the application, `AT+CWJAP`, `AT+CWSAP_DEF`, `AT+CWHOSTNAME`,
`AT+CIPDOMAIN` and `AT+CIPSTART`: from the line into the record of the handler, and from there into
`at_callback_para_t` and `at_cfg`. A copy is recorded with the size of the two members.

`AT+CWJAP` has a parser of its own, which reads past a `<LF>`, counts every quote and every comma
twice, and does not look at the room that is left in the record. `text_intact_iff` says which lines
it takes to the callback as they were meant, and which lines of the other commands are copied in
bounds.
-/

namespace XR806
namespace AtCmd
namespace Extend

open Config (AtConfig fieldOf u32Bytes overlay)

/-! ## The callback -/

/-- `AT_ERROR_CODE`. -/
inductive ErrorCode
  | ok | blankLine | cmdFail | cmdError | paraError | noPara | unsupported | notFound
  | nullPointer | outOfRange | scanFail | readOnly | sendFail | switchMode | connectFail
  | bindFail | socketFail | limited | disconnect | networkError | notEnoughMemory
  | improperOperation | socketExisting | sendReady | sendTimeout | upgradeFailed | undefined
deriving DecidableEq, Repr

/-- `AT_CALLBACK_CMD`, as far as these commands pass it. -/
inductive CallbackCmd
  | cwjapInfo
  | cwjapCur
  | apcfg
  | cwqap
  | cipdomain
  | cipstart
deriving DecidableEq, Repr

/-- The members of `at_callback_para_t` that these commands set, a text as the string in it. -/
inductive CallbackPara
  | joinParam (ssid pwd : List UInt8)
  | apcfgParam (ssid psk : List UInt8) (chl : Nat) (maxConn : Option Nat)
  | iphostname (hostname : List UInt8)
  | dnsParse (hostname : List UInt8)
  | netParam (linkId : Nat) (networkType hostname : List UInt8) (port localport keepAlive : Nat)
deriving DecidableEq, Repr

/-- `handle_cb`, which also has `at_cfg`. -/
abbrev HandleCb := CallbackCmd → Option CallbackPara → AtConfig → ErrorCode × AtConfig

/-- `sysinfo->wlan_ap_param`. -/
structure WlanApParam where
  ssid : List UInt8
  ssidLen : Nat
  psk : List UInt8
  channel : Nat

structure World where
  cfg : AtConfig
  ap : WlanApParam

/-- What a handler leaves: `called` is what the callback got. -/
structure Ran where
  ret : ErrorCode
  world : World
  called : Option (CallbackCmd × Option CallbackPara)
  log : List Access

def World.stop (w : World) (ret : ErrorCode) (log : List Access) : Ran :=
  { ret, world := w, called := none, log }

/-- The call of `handle_cb` where it is set; `answer` is what is made of its result. -/
def World.call (w : World) (handleCb : Option HandleCb) (cmd : CallbackCmd)
    (para : Option CallbackPara) (log : List Access) (answer : Option ErrorCode → ErrorCode) :
    Ran :=
  match handleCb with
  | none => w.stop (answer none) log
  | some cb =>
    let r := cb cmd para w.cfg
    { ret := answer (some r.1), world := { w with cfg := r.2 }, called := some (cmd, para), log }

/-- `n` bytes of a member of `src` bytes into a member of `dst` bytes. -/
def memcpy (src dst n : Nat) : List Access := [.pvar src n, .pvar dst n]

def strcpy (src dst : Nat) (str : List UInt8) : List Access := memcpy src dst (str.length + 1)

/-! ## `AT+CWJAP` -/

def sysinfoSsidLenMax : Nat := 32
def sysinfoPskLenMax : Nat := 65

def atBackslash : UInt8 := 0x5c

/-- The limit of the characters that `at_get_ssid_psk` counts. -/
def ssidPskLimit : Nat := sysinfoSsidLenMax + sysinfoPskLenMax + 1

/-- `at_joinAp_para_t` with the cursor `ptr`, which is in the member that starts at `base`. -/
structure JoinParam where
  bytes : List UInt8
  base : Nat
  n : Nat

/-- `*ptr++ = b`. -/
def JoinParam.put (j : JoinParam) (b : UInt8) : JoinParam :=
  { j with bytes := j.bytes.set (j.base + j.n) b, n := j.n + 1 }

def JoinParam.store (j : JoinParam) : Access := .pvar atParaMaxSize (j.n + 1)

/-- `ptr = pwd`. -/
def JoinParam.atPwd (j : JoinParam) : JoinParam := { j with base := atParaMaxSize, n := 0 }

def JoinParam.zero : JoinParam :=
  { bytes := List.replicate (2 * atParaMaxSize) 0, base := 0, n := 0 }

/-- What `at_get_ssid_psk` leaves. -/
structure SsidPsk where
  joinParam : List UInt8
  ok : Bool
  log : List Access

def SsidPsk.after (log : List Access) (s : SsidPsk) : SsidPsk := { s with log := log ++ s.log }

/-- The loop of `at_get_ssid_psk`, with `i` characters counted. Where the buffer is at its end the
read is recorded. -/
def ssidPskLoop : List UInt8 → Nat → JoinParam → SsidPsk
  | [], i, j =>
    { joinParam := j.bytes, ok := false, log := if i < ssidPskLimit then [.read []] else [] }
  | b :: para, i, j =>
    if i < ssidPskLimit then
      .after [.read (b :: para)] <|
        if b = atBackslash then
          match para with
          | [] => { joinParam := j.bytes, ok := false, log := [.read []] }
          | x :: para => .after [.read (x :: para), j.store] (ssidPskLoop para (i + 2) (j.put x))
        else if b = atQuo then ssidPskLoop para (i + 2) j
        else if b = atSeparator then ssidPskLoop para (i + 2) j.atPwd
        else if b = atCr then { joinParam := j.bytes, ok := true, log := [.read para] }
        else .after [j.store] (ssidPskLoop para (i + 1) (j.put b))
    else { joinParam := j.bytes, ok := false, log := [] }

def atGetSsidPsk (para : List UInt8) : SsidPsk := ssidPskLoop para 0 .zero

/-- `at_join_ap`. The length of the name is set before it is checked. -/
def atJoinAp (handleCb : Option HandleCb) (w : World) (ssid pwd : List UInt8)
    (log : List Access) : Ran :=
  let log := log ++ (strcpy atParaMaxSize 33 ssid ++ strcpy atParaMaxSize 33 pwd)
  let cfg := w.cfg.store (fieldOf "wifi_ssid_len").1 (u32Bytes ssid.length)
  if (fieldOf "wifi_ssid").2 ≤ ssid.length then World.stop { w with cfg } .limited log
  else
    let cfg := cfg.store (fieldOf "wifi_ssid").1 (List.replicate (fieldOf "wifi_ssid").2 0)
    let cfg := cfg.store (fieldOf "wifi_wpa_psk_text").1
      (List.replicate (fieldOf "wifi_wpa_psk_text").2 0)
    let cfg := cfg.store (fieldOf "wifi_ssid").1 (ssid ++ [0])
    let cfg := cfg.store (fieldOf "wifi_wpa_psk_text").1 (pwd ++ [0])
    World.call { w with cfg } handleCb .cwjapCur (some (.joinParam ssid pwd))
      (log ++ (strcpy atParaMaxSize (fieldOf "wifi_ssid").2 ssid ++
        strcpy atParaMaxSize (fieldOf "wifi_wpa_psk_text").2 pwd))
      fun ret => if ret = some .ok then .ok else .cmdFail

/-- `at_get_apinfo`. -/
def atGetApinfo (handleCb : Option HandleCb) (w : World) : Ran :=
  w.call handleCb .cwjapInfo none [] fun ret => ret.getD .cmdFail

def joinApHandler (handleCb : Option HandleCb) (w : World) (para : List UInt8) : Ran :=
  if para.head? = some atQue then atGetApinfo handleCb w
  else if para.head? ≠ some atEqu then w.stop .paraError []
  else
    let s := atGetSsidPsk para.tail
    if s.ok = false then w.stop .paraError s.log
    else
      let r := atJoinAp handleCb w (cString s.joinParam)
        (cString (s.joinParam.drop atParaMaxSize)) s.log
      { r with ret := if r.ret = .ok then .ok else .cmdFail }

/-! ## The other commands -/

/-- What a handler with one table parses, and where it stops. -/
def World.parse (w : World) (list : List Descriptor) (count : Nat) (para : List UInt8)
    (next : List (List UInt8) → List Access → Ran) : Ran :=
  if para.head? ≠ some atEqu then w.stop .paraError []
  else
    let p := atGetParameters list para.tail
    if p.error ∨ p.values.length < count then w.stop .paraError p.log
    else next p.values p.log

/-- `at_set_ap`. -/
def atSetAp (handleCb : Option HandleCb) (w : World) (ssid psk : List UInt8) (chl : Nat)
    (maxConn : Option Nat) (log : List Access) : Ran :=
  w.call handleCb .apcfg (some (.apcfgParam ssid psk (chl % 256) maxConn))
    (log ++ ([.pvar 64 64, .pvar 64 64] ++ (memcpy atParaMaxSize 64 ssid.length ++
      memcpy atParaMaxSize 64 psk.length)))
    fun _ => .ok

def apcfgOpt : Nat := aetBoth ||| sizeLimit 144

def apcfgList : List Descriptor :=
  [text 64 apcfgOpt, text 64 apcfgOpt, di apcfgOpt, di apcfgOpt, di apcfgOpt, di apcfgOpt]

/-- `AT_QUE` is looked for where it is known to be `AT_EQU`. Four parameters are asked for, and
`max_conn` is the fifth. -/
def setApcfgHandler (handleCb : Option HandleCb) (w : World) (para : List UInt8) : Ran :=
  w.parse apcfgList 4 para fun values log =>
    let ssid := cString (values.getD 0 [])
    let psk := cString (values.getD 1 [])
    let chl := atAtoi (values.getD 2 [])
    let ap : WlanApParam :=
      { ssid := overlay w.ap.ssid ssid, psk := overlay w.ap.psk psk, ssidLen := ssid.length,
        channel := chl }
    atSetAp handleCb { w with ap } ssid psk chl (values[4]?.map atAtoi)
      (log ++ (memcpy atParaMaxSize sysinfoSsidLenMax ssid.length ++
        memcpy atParaMaxSize sysinfoPskLenMax psk.length))

/-- `at_set_hostname`, which passes the number of another command. -/
def atSetHostname (handleCb : Option HandleCb) (w : World) (hostname : List UInt8)
    (log : List Access) : Ran :=
  w.call handleCb .cwqap (some (.iphostname hostname)) (log ++ strcpy atParaMaxSize 33 hostname)
    fun _ => .ok

def hostnameOpt : Nat := aetBoth ||| sizeLimit 64

def setHostnameHandler (handleCb : Option HandleCb) (w : World) (para : List UInt8) : Ran :=
  w.parse [text 64 hostnameOpt] 1 para fun values log =>
    atSetHostname handleCb w (cString (values.getD 0 [])) log

/-- `at_domain_query`, which copies `sizeof(at_cfg.ip_hostname)` bytes of the record, whatever the
length of the text. A longer text is cut off there, and has no end. -/
def atDomainQuery (handleCb : Option HandleCb) (w : World) (address : List UInt8)
    (log : List Access) : Ran :=
  w.call handleCb .cipdomain
    (some (.dnsParse (cString (address.take (fieldOf "ip_hostname").2))))
    (log ++ memcpy atParaMaxSize 128 (fieldOf "ip_hostname").2)
    fun ret => ret.getD .ok

def dnsHandler (handleCb : Option HandleCb) (w : World) (para : List UInt8) : Ran :=
  w.parse [text 64 hostnameOpt] 1 para fun values log =>
    atDomainQuery handleCb w (values.getD 0 []) log

/-- `at_network_para_t`. -/
structure NetworkPara where
  linkId : Nat
  type : List UInt8
  hostname : List UInt8
  port : Nat
  localport : Nat
  keepAlive : Nat

/-- `at_create_network_connect`. The type goes into `networkType`, and into `type` as well. -/
def atCreateNetworkConnect (handleCb : Option HandleCb) (w : World) (netpara : NetworkPara)
    (log : List Access) : Ran :=
  w.call handleCb .cipstart
    (some (.netParam netpara.linkId netpara.type netpara.hostname netpara.port netpara.localport
      netpara.keepAlive))
    (log ++ (strcpy 4 4 netpara.type ++ (strcpy atParaMaxSize atParaMaxSize netpara.hostname ++
      strcpy 4 4 netpara.type)))
    fun ret => ret.getD .ok

/-- The second table is the same for both types but for the field of its last parameter. -/
def createTcpUdpHandler (handleCb : Option HandleCb) (w : World) (para : List UInt8) : Ran :=
  if para.head? ≠ some atEqu then w.stop .paraError []
  else
    let p := atGetParameters connectType2 para.tail
    let linkId := atAtoi (p.values.getD 0 [])
    let type := cString (p.values.getD 1 [])
    if p.error ∨ 4 < linkId then w.stop .paraError p.log
    else if type = bytesOf "TCP" then
      let q := atGetParameters connectList p.para
      if q.error then w.stop .paraError (p.log ++ q.log)
      else
        atCreateNetworkConnect handleCb w
          { linkId, type, hostname := cString (q.values.getD 0 []),
            port := atAtoi (q.values.getD 1 []), localport := 0,
            keepAlive := atAtoi (q.values.getD 2 []) }
          (p.log ++ q.log)
    else if type = bytesOf "UDP" then
      let q := atGetParameters connectList p.para
      if q.error then w.stop .paraError (p.log ++ q.log)
      else
        atCreateNetworkConnect handleCb w
          { linkId, type, hostname := cString (q.values.getD 0 []),
            port := atAtoi (q.values.getD 1 []), localport := atAtoi (q.values.getD 2 []),
            keepAlive := 0 }
          (p.log ++ q.log)
    else w.stop .paraError p.log

/-! ## A line to its command -/

inductive Command
  | joinAp
  | setApcfg
  | setHostname
  | dns
  | createTcpUdp
deriving DecidableEq, Repr

/-- The rows of `at_command_table` with these commands. -/
def commandTable : List (String × Command) :=
  [("AT+CWJAP", .joinAp), ("AT+CWJAP_CUR", .joinAp), ("AT+CWJAP_DEF", .joinAp),
   ("AT+CIPSTART", .createTcpUdp), ("AT+CWSAP_DEF", .setApcfg), ("AT+CWHOSTNAME", .setHostname),
   ("AT+CIPDOMAIN", .dns)]

def Command.handler : Command → Handler
  | .joinAp => AtCmd.joinApHandler
  | .setApcfg => AtCmd.setApcfgHandler
  | .setHostname => AtCmd.setHostnameHandler
  | .dns => AtCmd.dnsHandler
  | .createTcpUdp => AtCmd.createTcpUdpHandler

def Command.run : Command → Option HandleCb → World → List UInt8 → Ran
  | .joinAp => joinApHandler
  | .setApcfg => setApcfgHandler
  | .setHostname => setHostnameHandler
  | .dns => dnsHandler
  | .createTcpUdp => createTcpUdpHandler

/-- `at_parse_cmd` up to the call of the handler: the command, and the pointer behind its name. -/
def dispatch (cmdline : List UInt8) (size : Nat) : Option (Command × List UInt8) :=
  match cmdName size cmdline [] with
  | none => none
  | some (cmd, cptr) =>
    (commandTable.find? fun entry => cString cmd = bytesOf entry.1).map fun entry =>
      (entry.2, cptr)

/-! ## The text of `AT+CWJAP` -/

/-- What `at_get_ssid_psk` tells apart in front of the `<CR>`. -/
inductive Token
  | escape (b : UInt8)
  | quote
  | comma
  | byte (b : UInt8)
deriving DecidableEq, Repr

def Token.spell : Token → List UInt8
  | .escape b => [atBackslash, b]
  | .quote => [atQuo]
  | .comma => [atSeparator]
  | .byte b => [b]

def spell (ts : List Token) : List UInt8 := ts.flatMap Token.spell

/-- How many characters a token counts. -/
def Token.cost : Token → Nat
  | .byte _ => 1
  | _ => 2

def cost (ts : List Token) : Nat := (ts.map Token.cost).sum

def isSpecial (b : UInt8) : Bool := b = atBackslash ∨ b = atQuo ∨ b = atSeparator

/-- A byte that stands for itself is not one of the others. -/
def Token.Valid : Token → Prop
  | .byte b => isSpecial b = false ∧ b ≠ atCr
  | _ => True

/-- The bytes that are stored between the commas. -/
def parts : List Token → List UInt8 × List (List UInt8)
  | [] => ([], [])
  | .escape b :: ts => (b :: (parts ts).1, (parts ts).2)
  | .byte b :: ts => (b :: (parts ts).1, (parts ts).2)
  | .quote :: ts => parts ts
  | .comma :: ts => ([], (parts ts).1 :: (parts ts).2)

/-- No part is longer than its member of the record. -/
def PartsFit (ts : List Token) : Prop :=
  (parts ts).1.length ≤ atParaMaxSize ∧ ∀ part ∈ (parts ts).2, part.length ≤ atParaMaxSize

/-- The two members of the record: the first part, and the later ones, each laid over the ones
before it. -/
def ssidOf (ts : List Token) : List UInt8 :=
  overlay (List.replicate atParaMaxSize 0) (parts ts).1

def pwdOf (ts : List Token) : List UInt8 :=
  (parts ts).2.foldl overlay (List.replicate atParaMaxSize 0)

section
variable {ts : List Token} {t : Token} {rest : List UInt8}

@[simp] theorem spell_nil : spell [] = [] := rfl

@[simp] theorem spell_cons : spell (t :: ts) = t.spell ++ spell ts := rfl

theorem spell_append (ts₁ ts₂ : List Token) : spell (ts₁ ++ ts₂) = spell ts₁ ++ spell ts₂ :=
  List.flatMap_append

@[simp] theorem cost_nil : cost [] = 0 := rfl

@[simp] theorem cost_cons : cost (t :: ts) = t.cost + cost ts := rfl

theorem cost_append (ts₁ ts₂ : List Token) : cost (ts₁ ++ ts₂) = cost ts₁ + cost ts₂ := by
  simp [cost]

/-- The next token of a text that is not at its end. -/
theorem token_cases (para : List UInt8) : para = [] ∨ para = [atBackslash] ∨
    (∃ rest, para = atCr :: rest) ∨ ∃ t rest, Token.Valid t ∧ para = t.spell ++ rest := by
  cases para with
  | nil => exact .inl rfl
  | cons b para =>
    by_cases hbs : b = atBackslash
    · subst hbs
      cases para with
      | nil => exact .inr (.inl rfl)
      | cons x para => exact .inr (.inr (.inr ⟨.escape x, para, trivial, rfl⟩))
    by_cases hquo : b = atQuo
    · exact .inr (.inr (.inr ⟨.quote, para, trivial, by rw [hquo]; rfl⟩))
    by_cases hsep : b = atSeparator
    · exact .inr (.inr (.inr ⟨.comma, para, trivial, by rw [hsep]; rfl⟩))
    by_cases hcr : b = atCr
    · exact .inr (.inr (.inl ⟨para, by rw [hcr]⟩))
    · exact .inr (.inr (.inr ⟨.byte b, para, ⟨by simp [isSpecial, hbs, hquo, hsep], hcr⟩, rfl⟩))

/-- How the loop ends: at a `<CR>`, with the token that reaches the limit, or with the buffer. -/
theorem exists_tokens (n : Nat) : ∀ para : List UInt8, para.length ≤ n → ∀ i < ssidPskLimit,
    ∃ ts rest, (∀ t ∈ ts, Token.Valid t) ∧ para = spell ts ++ rest ∧ i + cost ts < ssidPskLimit ∧
      ((∃ rest', rest = atCr :: rest') ∨
        (∃ t rest', Token.Valid t ∧ rest = t.spell ++ rest' ∧
          ssidPskLimit ≤ i + cost ts + t.cost) ∨
        rest = [] ∨ rest = [atBackslash]) := by
  induction n with
  | zero =>
    intro para hlen i hi
    exact ⟨[], para, by simp, rfl, hi, .inr (.inr (.inl (List.length_eq_zero_iff.mp (by omega))))⟩
  | succ n ih =>
    intro para hlen i hi
    rcases token_cases para with rfl | rfl | ⟨rest, rfl⟩ | ⟨t, rest, ht, rfl⟩
    · exact ⟨[], [], by simp, rfl, hi, .inr (.inr (.inl rfl))⟩
    · exact ⟨[], [atBackslash], by simp, rfl, hi, .inr (.inr (.inr rfl))⟩
    · exact ⟨[], atCr :: rest, by simp, rfl, hi, .inl ⟨rest, rfl⟩⟩
    by_cases hfull : ssidPskLimit ≤ i + t.cost
    · exact ⟨[], t.spell ++ rest, by simp, rfl, hi, .inr (.inl ⟨t, rest, ht, rfl, hfull⟩)⟩
    · have hpos : 0 < t.spell.length := by cases t <;> exact Nat.zero_lt_succ _
      rw [List.length_append] at hlen
      obtain ⟨ts, rest', hts, rfl, hcost, hend⟩ := ih rest (by omega) (i + t.cost) (by omega)
      refine ⟨t :: ts, rest', List.forall_mem_cons.mpr ⟨ht, hts⟩, by simp, ?_, ?_⟩
      · rw [cost_cons]
        omega
      · simpa [Nat.add_assoc] using hend

end

/-! ## The loop over the tokens -/

def Token.isStored : Token → Bool
  | .escape _ | .byte _ => true
  | _ => false

/-- What a token does to the record. -/
def JoinParam.take (j : JoinParam) : Token → JoinParam
  | .escape b | .byte b => j.put b
  | .quote => j
  | .comma => j.atPwd

/-- What the loop does with a token in front of `rest`. -/
def Token.log (t : Token) (j : JoinParam) (rest : List UInt8) : List Access :=
  match t with
  | .escape b => [.read (atBackslash :: b :: rest), .read (b :: rest), j.store]
  | .byte b => [.read (b :: rest), j.store]
  | .quote => [.read (atQuo :: rest)]
  | .comma => [.read (atSeparator :: rest)]

/-- The tokens in turn. -/
def takeLog : List Token → JoinParam → List UInt8 → List Access
  | [], _, _ => []
  | t :: ts, j, rest => t.log j (spell ts ++ rest) ++ takeLog ts (j.take t) rest

section
variable {ts : List Token} {t : Token} {i : Nat} {j : JoinParam} {behind rest : List UInt8}

theorem SsidPsk.after_after (l₁ l₂ : List Access) (s : SsidPsk) :
    (s.after l₂).after l₁ = s.after (l₁ ++ l₂) := by
  simp [SsidPsk.after]

theorem ssidPskLoop_full (hi : ssidPskLimit ≤ i) (para : List UInt8) :
    ssidPskLoop para i j = { joinParam := j.bytes, ok := false, log := [] } := by
  cases para with
  | nil => rw [ssidPskLoop, if_neg (by omega)]
  | cons b para =>
    rw [ssidPskLoop.eq_def]
    exact if_neg (by omega)

theorem ssidPskLoop_escape (hi : i < ssidPskLimit) (b : UInt8) :
    ssidPskLoop (atBackslash :: b :: rest) i j =
      .after [.read (atBackslash :: b :: rest), .read (b :: rest), j.store]
        (ssidPskLoop rest (i + 2) (j.put b)) := by
  rw [ssidPskLoop.eq_def]
  exact if_pos hi

/-- A byte with no escape, in the order in which the loop looks at it. -/
theorem ssidPskLoop_byte (hi : i < ssidPskLimit) {b : UInt8} (hb : b ≠ atBackslash) :
    ssidPskLoop (b :: rest) i j = .after [.read (b :: rest)]
      (if b = atQuo then ssidPskLoop rest (i + 2) j
        else if b = atSeparator then ssidPskLoop rest (i + 2) j.atPwd
        else if b = atCr then { joinParam := j.bytes, ok := true, log := [.read rest] }
        else .after [j.store] (ssidPskLoop rest (i + 1) (j.put b))) := by
  rw [ssidPskLoop.eq_def]
  dsimp only
  rw [if_pos hi, if_neg hb]

theorem ssidPskLoop_cr (hi : i < ssidPskLimit) :
    ssidPskLoop (atCr :: rest) i j =
      { joinParam := j.bytes, ok := true, log := [.read (atCr :: rest), .read rest] } := by
  rw [ssidPskLoop_byte hi (by decide)]
  rfl

/-- The one step of the loop. -/
theorem ssidPskLoop_token (ht : t.Valid) (hi : i < ssidPskLimit) :
    ssidPskLoop (t.spell ++ rest) i j =
      .after (t.log j rest) (ssidPskLoop rest (i + t.cost) (j.take t)) := by
  cases t with
  | escape b => exact ssidPskLoop_escape hi b
  | quote => exact ssidPskLoop_byte hi (by decide)
  | comma => exact ssidPskLoop_byte hi (by decide)
  | byte b =>
    obtain ⟨hb, hcr⟩ := ht
    simp only [isSpecial, decide_eq_false_iff_not, not_or] at hb
    rw [Token.spell, List.singleton_append, ssidPskLoop_byte hi hb.1, if_neg hb.2.1,
      if_neg hb.2.2, if_neg hcr]
    exact SsidPsk.after_after _ _ _

theorem ssidPskLoop_tokens (hts : ∀ t ∈ ts, Token.Valid t) (rest : List UInt8) :
    ∀ (i : Nat) (j : JoinParam), i + cost ts < ssidPskLimit →
      ssidPskLoop (spell ts ++ rest) i j =
        .after (takeLog ts j rest)
          (ssidPskLoop rest (i + cost ts) (ts.foldl JoinParam.take j)) := by
  induction ts with
  | nil => exact fun i j _ => rfl
  | cons t ts ih =>
    obtain ⟨ht, hts⟩ := List.forall_mem_cons.mp hts
    intro i j hcost
    rw [cost_cons] at hcost ⊢
    rw [spell_cons, List.append_assoc, ssidPskLoop_token ht (by omega),
      ih hts (i + t.cost) (j.take t) (by omega), SsidPsk.after_after, Nat.add_assoc]
    rfl

end

/-! ### Its accesses -/

section
variable {t : Token} {j : JoinParam} {behind rest : List UInt8}

theorem Token.log_safe_iff : Safe behind (t.log j rest) ↔
    behind.length ≤ rest.length ∧ (t.isStored = true → j.n < atParaMaxSize) := by
  cases t with
  | escape b =>
    simp [Token.log, Token.isStored, JoinParam.store]
    omega
  | quote => simp [Token.log, Token.isStored]
  | comma => simp [Token.log, Token.isStored]
  | byte b => simp [Token.log, Token.isStored, JoinParam.store]

theorem takeLog_concat (t : Token) (ts : List Token) (rest : List UInt8) : ∀ j : JoinParam,
    takeLog (ts ++ [t]) j rest =
      takeLog ts j (t.spell ++ rest) ++ t.log (ts.foldl JoinParam.take j) rest := by
  induction ts with
  | nil => exact fun j => List.append_nil _
  | cons x ts ih =>
    intro j
    simp [takeLog, ih, spell_append]

/-- A part is stored in its member exactly as far as it fits there. -/
theorem takeLog_safe_iff (ts : List Token) (h : behind.length ≤ rest.length) : ∀ j : JoinParam,
    j.n ≤ atParaMaxSize → (Safe behind (takeLog ts j rest) ↔
      j.n + (parts ts).1.length ≤ atParaMaxSize ∧
        ∀ part ∈ (parts ts).2, part.length ≤ atParaMaxSize) := by
  induction ts with
  | nil =>
    intro j hn
    simp [takeLog, parts, hn]
  | cons t ts ih =>
    intro j hn
    have hrest : behind.length ≤ (spell ts ++ rest).length := by
      rw [List.length_append]
      omega
    rw [takeLog, safe_append, Token.log_safe_iff, and_iff_right hrest]
    have hstored : ∀ b, (j.n < atParaMaxSize ∧ Safe behind (takeLog ts (j.put b) rest) ↔
        j.n + ((parts ts).1.length + 1) ≤ atParaMaxSize ∧
          ∀ part ∈ (parts ts).2, part.length ≤ atParaMaxSize) := by
      intro b
      by_cases hlt : j.n < atParaMaxSize
      · rw [and_iff_right hlt, ih (j.put b) hlt, JoinParam.put]
        dsimp only
        rw [Nat.add_assoc, Nat.add_comm 1]
      · refine iff_of_false (fun hs => hlt hs.1) fun hs => ?_
        omega
    cases t with
    | escape b => simpa [Token.isStored, JoinParam.take, parts] using hstored b
    | byte b => simpa [Token.isStored, JoinParam.take, parts] using hstored b
    | quote => simpa [Token.isStored, JoinParam.take, parts] using ih j hn
    | comma =>
      have hpwd := ih j.atPwd (Nat.zero_le _)
      simpa [Token.isStored, JoinParam.take, parts, JoinParam.atPwd, hn] using hpwd

end

/-! ### The record -/

section
variable {w cur : List UInt8}

theorem overlay_length (h : cur.length ≤ w.length) : (overlay w cur).length = w.length := by
  rw [overlay, List.length_append, List.length_drop]
  omega

/-- One more byte behind those that are laid over the member. -/
theorem overlay_set (h : cur.length < w.length) (b : UInt8) :
    (overlay w cur).set cur.length b = overlay w (cur ++ [b]) := by
  rw [overlay, List.set_append_right _ _ (Nat.le_refl _), Nat.sub_self,
    List.drop_eq_getElem_cons h, List.set_cons_zero, overlay, List.length_append,
    List.append_assoc]
  rfl

end

/-- The later parts: `cur` is what is stored since the last comma. -/
theorem take_pwd (ts : List Token) (ssid : List UInt8) (hssid : ssid.length = atParaMaxSize) :
    ∀ w cur : List UInt8, w.length = atParaMaxSize →
      cur.length + (parts ts).1.length ≤ atParaMaxSize →
        (∀ part ∈ (parts ts).2, part.length ≤ atParaMaxSize) →
          (ts.foldl JoinParam.take ⟨ssid ++ overlay w cur, atParaMaxSize, cur.length⟩).bytes =
            ssid ++ (parts ts).2.foldl overlay (overlay w (cur ++ (parts ts).1)) := by
  induction ts with
  | nil =>
    intro w cur _ _ _
    simp [parts]
  | cons t ts ih =>
    intro w cur hw hcur hparts
    have hput : ∀ b, cur.length + ((parts ts).1.length + 1) ≤ atParaMaxSize →
        (∀ part ∈ (parts ts).2, part.length ≤ atParaMaxSize) →
          (ts.foldl JoinParam.take
            (JoinParam.put ⟨ssid ++ overlay w cur, atParaMaxSize, cur.length⟩ b)).bytes =
              ssid ++ (parts ts).2.foldl overlay (overlay w (cur ++ b :: (parts ts).1)) := by
      intro b hlen hparts
      have hset : (ssid ++ overlay w cur).set (atParaMaxSize + cur.length) b =
          ssid ++ overlay w (cur ++ [b]) := by
        rw [List.set_append_right _ _ (by omega), hssid, Nat.add_sub_cancel_left,
          overlay_set (by omega)]
      have hnext := ih w (cur ++ [b]) hw (by simpa [Nat.add_assoc, Nat.add_comm] using hlen) hparts
      rw [List.append_assoc, List.length_append] at hnext
      rw [JoinParam.put, hset]
      exact hnext
    cases t with
    | escape b => exact hput b hcur hparts
    | byte b => exact hput b hcur hparts
    | quote => exact ih w cur hw hcur hparts
    | comma =>
      simp only [parts, List.forall_mem_cons] at hcur hparts
      have hcur' : cur.length ≤ atParaMaxSize := hcur
      have hlen : (overlay w cur).length = atParaMaxSize := by
        rw [overlay_length (by omega), hw]
      rw [parts, List.append_nil]
      exact ih (overlay w cur) [] hlen (by simpa using hparts.1) hparts.2

/-- The first part: `cur` is what is stored so far. -/
theorem take_ssid (ts : List Token) (pwd : List UInt8) (hpwd : pwd.length = atParaMaxSize) :
    ∀ w cur : List UInt8, w.length = atParaMaxSize →
      cur.length + (parts ts).1.length ≤ atParaMaxSize →
        (∀ part ∈ (parts ts).2, part.length ≤ atParaMaxSize) →
          (ts.foldl JoinParam.take ⟨overlay w cur ++ pwd, 0, cur.length⟩).bytes =
            overlay w (cur ++ (parts ts).1) ++ (parts ts).2.foldl overlay pwd := by
  induction ts with
  | nil =>
    intro w cur _ _ _
    simp [parts]
  | cons t ts ih =>
    intro w cur hw hcur hparts
    have hcur' : cur.length ≤ atParaMaxSize := by omega
    have hlen : (overlay w cur).length = atParaMaxSize := by
      rw [overlay_length (by omega), hw]
    have hput : ∀ b, cur.length + ((parts ts).1.length + 1) ≤ atParaMaxSize →
        (∀ part ∈ (parts ts).2, part.length ≤ atParaMaxSize) →
          (ts.foldl JoinParam.take
            (JoinParam.put ⟨overlay w cur ++ pwd, 0, cur.length⟩ b)).bytes =
              overlay w (cur ++ b :: (parts ts).1) ++ (parts ts).2.foldl overlay pwd := by
      intro b hb hparts
      have hset : (overlay w cur ++ pwd).set (0 + cur.length) b =
          overlay w (cur ++ [b]) ++ pwd := by
        rw [Nat.zero_add, List.set_append_left _ _ (by omega), overlay_set (by omega)]
      have hnext := ih w (cur ++ [b]) hw (by simpa [Nat.add_assoc, Nat.add_comm] using hb) hparts
      rw [List.append_assoc, List.length_append] at hnext
      rw [JoinParam.put, hset]
      exact hnext
    cases t with
    | escape b => exact hput b hcur hparts
    | byte b => exact hput b hcur hparts
    | quote => exact ih w cur hw hcur hparts
    | comma =>
      simp only [parts, List.forall_mem_cons] at hparts
      rw [parts, List.append_nil]
      exact take_pwd ts (overlay w cur) hlen pwd [] hpwd (by simpa using hparts.1) hparts.2

theorem take_zero {ts : List Token} (h : PartsFit ts) :
    (ts.foldl JoinParam.take .zero).bytes = ssidOf ts ++ pwdOf ts := by
  have hzero : (List.replicate atParaMaxSize (0 : UInt8)).length = atParaMaxSize :=
    List.length_replicate
  have htake := take_ssid ts (List.replicate atParaMaxSize 0) hzero (List.replicate atParaMaxSize 0)
    [] hzero (by simpa using h.1) h.2
  exact htake

theorem ssidOf_length {ts : List Token} (h : PartsFit ts) : (ssidOf ts).length = atParaMaxSize := by
  rw [ssidOf, overlay_length (by simpa using h.1), List.length_replicate]

/-- The strings in the members fit `joinParam` of the callback. -/
def StringsFit (ts : List Token) : Prop :=
  (cString (ssidOf ts)).length < 33 ∧ (cString (pwdOf ts)).length < 33

/-- A string that ends in its member, also where the member is not the last of the record. -/
theorem cString_member {a : List UInt8} (ha : a.length = atParaMaxSize) (b : List UInt8) :
    ((cString (a ++ b)).length < 33 ↔ (cString a).length < 33) ∧
      ((cString a).length < 33 → cString (a ++ b) = cString a) := by
  have h64 : 33 < a.length := by
    rw [ha]
    decide
  have happ : cString (a ++ b) = if (cString a).length = a.length then a ++ cString b
      else cString a := List.takeWhile_append
  by_cases hall : (cString a).length = a.length
  · rw [happ, if_pos hall, List.length_append]
    refine ⟨by omega, fun hlt => ?_⟩
    omega
  · rw [happ, if_neg hall]
    exact ⟨Iff.rfl, fun _ => rfl⟩

/-! ## The handler of `AT+CWJAP` -/

section
variable {w : World} {cmd : CallbackCmd} {para : Option CallbackPara} {log : List Access}
  {answer : Option ErrorCode → ErrorCode} {cb : HandleCb} {handleCb : Option HandleCb}

@[simp] theorem stop_log (ret : ErrorCode) : (w.stop ret log).log = log := rfl

@[simp] theorem stop_called (ret : ErrorCode) : (w.stop ret log).called = none := rfl

@[simp] theorem call_log : (w.call handleCb cmd para log answer).log = log := by
  cases handleCb <;> rfl

theorem memcpy_safe {behind : List UInt8} {src dst n : Nat} :
    Safe behind (memcpy src dst n) ↔ n ≤ src ∧ n ≤ dst := by
  simp [memcpy]

theorem strcpy_safe {behind : List UInt8} {src dst : Nat} {str : List UInt8} :
    Safe behind (strcpy src dst str) ↔ str.length < src ∧ str.length < dst := memcpy_safe

theorem wifiSsid_size : (fieldOf "wifi_ssid").2 = 33 := by decide

theorem wifiWpaPskText_size : (fieldOf "wifi_wpa_psk_text").2 = 65 := by decide

end

section
variable {cb : HandleCb} {w : World} {behind ssid pwd : List UInt8} {log : List Access}

/-- The first two copies decide about the others. -/
theorem atJoinAp_safe_iff : Safe behind (atJoinAp (some cb) w ssid pwd log).log ↔
    Safe behind log ∧ ssid.length < 33 ∧ pwd.length < 33 := by
  have hcopies : Safe behind (strcpy atParaMaxSize 33 ssid ++ strcpy atParaMaxSize 33 pwd) ↔
      ssid.length < 33 ∧ pwd.length < 33 := by
    rw [safe_append, strcpy_safe, strcpy_safe, atParaMaxSize]
    omega
  rw [atJoinAp, wifiSsid_size, wifiWpaPskText_size]
  dsimp only
  by_cases hlong : 33 ≤ ssid.length
  · rw [if_pos hlong, stop_log, safe_append, hcopies]
  · rw [if_neg hlong, call_log, safe_append, safe_append, hcopies, and_iff_left_iff_imp]
    rintro ⟨-, hs, hp⟩
    rw [safe_append, strcpy_safe, strcpy_safe, atParaMaxSize]
    omega

theorem atJoinAp_called (h : ssid.length < 33) : (atJoinAp (some cb) w ssid pwd log).called =
    some (.cwjapCur, some (.joinParam ssid pwd)) := by
  rw [atJoinAp, wifiSsid_size]
  exact congrArg Ran.called (if_neg (by omega))

theorem joinApHandler_equ (para : List UInt8) : joinApHandler (some cb) w (atEqu :: para) =
    let s := atGetSsidPsk para
    if s.ok = false then w.stop .paraError s.log
    else
      let r := atJoinAp (some cb) w (cString s.joinParam)
        (cString (s.joinParam.drop atParaMaxSize)) s.log
      { r with ret := if r.ret = .ok then .ok else .cmdFail } := rfl

/-- A line that does not set an access point stops, or asks the callback. -/
theorem joinApHandler_ne {para : List UInt8} (h : para.head? ≠ some atEqu) :
    (joinApHandler (some cb) w para).log = [] ∧
      ((joinApHandler (some cb) w para).called = none →
        (joinApHandler (some cb) w para).world = w) := by
  rw [joinApHandler]
  by_cases hq : para.head? = some atQue
  · rw [if_pos hq]
    exact ⟨rfl, fun hc => absurd hc.symm (Option.some_ne_none _).symm⟩
  · rw [if_neg hq, if_pos h]
    exact ⟨rfl, fun _ => rfl⟩

end

section
variable {ts : List Token} {t : Token} {behind rest : List UInt8}

/-- A text that ends with a `<CR>` before the limit. -/
theorem atGetSsidPsk_cr (hts : ∀ t ∈ ts, Token.Valid t) (hcost : cost ts < ssidPskLimit) :
    atGetSsidPsk (spell ts ++ atCr :: rest) =
      { joinParam := (ts.foldl JoinParam.take .zero).bytes, ok := true,
        log := takeLog ts .zero (atCr :: rest) ++ [.read (atCr :: rest), .read rest] } := by
  rw [atGetSsidPsk, ssidPskLoop_tokens hts _ 0 .zero (by omega), Nat.zero_add,
    ssidPskLoop_cr hcost]
  rfl

/-- A text whose token `t` reaches the limit. -/
theorem atGetSsidPsk_limit (hts : ∀ t ∈ ts, Token.Valid t) (ht : t.Valid)
    (hcost : cost ts < ssidPskLimit) (hfull : ssidPskLimit ≤ cost ts + t.cost) :
    (atGetSsidPsk (spell ts ++ (t.spell ++ rest))).ok = false ∧
      (atGetSsidPsk (spell ts ++ (t.spell ++ rest))).log = takeLog (ts ++ [t]) .zero rest := by
  rw [atGetSsidPsk, ssidPskLoop_tokens hts _ 0 .zero (by omega), Nat.zero_add,
    ssidPskLoop_token ht hcost, ssidPskLoop_full hfull, takeLog_concat]
  exact ⟨rfl, by simp [SsidPsk.after]⟩

theorem partsFit_iff (h : behind.length ≤ rest.length) :
    Safe behind (takeLog ts .zero rest) ↔ PartsFit ts := by
  rw [takeLog_safe_iff ts h _ (Nat.zero_le _), JoinParam.zero, Nat.zero_add, PartsFit]

theorem atGetSsidPsk_cr_safe (hts : ∀ t ∈ ts, Token.Valid t) (hcost : cost ts < ssidPskLimit) :
    Safe behind (atGetSsidPsk (spell ts ++ atCr :: rest)).log ↔
      behind.length < rest.length ∧ PartsFit ts := by
  rw [atGetSsidPsk_cr hts hcost, safe_append]
  by_cases hin : behind.length < rest.length
  · have hcr : behind.length ≤ (atCr :: rest).length := by
      rw [List.length_cons]
      omega
    rw [partsFit_iff hcr, and_comm]
    simp [hin]
    omega
  · simp [hin]

theorem atGetSsidPsk_limit_safe (hts : ∀ t ∈ ts, Token.Valid t) (ht : t.Valid)
    (hcost : cost ts < ssidPskLimit) (hfull : ssidPskLimit ≤ cost ts + t.cost) :
    Safe behind (atGetSsidPsk (spell ts ++ (t.spell ++ rest))).log ↔
      behind.length ≤ rest.length ∧ PartsFit (ts ++ [t]) := by
  rw [(atGetSsidPsk_limit hts ht hcost hfull).2]
  by_cases hin : behind.length ≤ rest.length
  · rw [partsFit_iff hin, and_iff_right hin]
  · refine iff_of_false (fun hs => hin ?_) fun hs => hin hs.1
    rw [takeLog_concat, safe_append, Token.log_safe_iff] at hs
    exact hs.2.1

/-- The buffer is at its end. -/
theorem atGetSsidPsk_nil (hts : ∀ t ∈ ts, Token.Valid t) (hcost : cost ts < ssidPskLimit)
    (hrest : rest = [] ∨ rest = [atBackslash]) :
    ¬Safe behind (atGetSsidPsk (spell ts ++ rest)).log := by
  intro hs
  rw [atGetSsidPsk, ssidPskLoop_tokens hts _ 0 .zero (by omega), Nat.zero_add] at hs
  have hend := (safe_append.mp hs).2
  rcases hrest with rfl | rfl
  · rw [ssidPskLoop, if_pos hcost] at hend
    simp at hend
  · rw [ssidPskLoop.eq_def] at hend
    dsimp only at hend
    rw [if_pos hcost, if_pos rfl] at hend
    simp [SsidPsk.after] at hend

end

/-! ## A name and a password in quotes -/

/-- A backslash in front of every byte that means something else. -/
def escaped (str : List UInt8) : List UInt8 :=
  str.flatMap fun b => if isSpecial b then [atBackslash, b] else [b]

/-- `"ssid","password"`. -/
def quoted (ssid pwd : List UInt8) : List UInt8 :=
  atQuo :: (escaped ssid ++ atQuo :: atSeparator :: atQuo :: (escaped pwd ++ [atQuo]))

structure Credentials (ssid pwd : List UInt8) : Prop where
  ssid_pos : ssid ≠ []
  ssid_le : ssid.length ≤ 32
  pwd_le : pwd.length ≤ 63
  ssid_plain : ∀ b ∈ ssid, b ≠ atCr ∧ b ≠ atLf ∧ b ≠ 0
  pwd_plain : ∀ b ∈ pwd, b ≠ atCr ∧ b ≠ atLf ∧ b ≠ 0

/-- `<LF>`, or `<CR>` with the byte behind it. -/
def LineEnd (behind e : List UInt8) : Prop :=
  e = atLf :: behind ∨ ∃ next, e = atCr :: next :: behind

def escapedTokens (str : List UInt8) : List Token :=
  str.map fun b => if isSpecial b then .escape b else .byte b

def quotedTokens (ssid pwd : List UInt8) : List Token :=
  .quote :: (escapedTokens ssid ++ .quote :: .comma :: .quote :: (escapedTokens pwd ++ [.quote]))

section
variable {str ssid pwd behind e : List UInt8}

theorem spell_escapedTokens (str : List UInt8) : spell (escapedTokens str) = escaped str := by
  induction str with
  | nil => rfl
  | cons b str ih =>
    rw [escapedTokens, List.map_cons, spell_cons, ← escapedTokens, ih, escaped, escaped,
      List.flatMap_cons]
    split_ifs <;> rfl

theorem cost_escapedTokens (str : List UInt8) :
    cost (escapedTokens str) = (escaped str).length := by
  induction str with
  | nil => rfl
  | cons b str ih =>
    rw [escapedTokens, List.map_cons, cost_cons, ← escapedTokens, ih, escaped, escaped,
      List.flatMap_cons, List.length_append]
    split_ifs <;> rfl

theorem escapedTokens_valid (h : ∀ b ∈ str, b ≠ atCr) :
    ∀ t ∈ escapedTokens str, Token.Valid t := by
  intro t ht
  obtain ⟨b, hb, rfl⟩ := List.mem_map.mp ht
  cases hs : isSpecial b with
  | true => trivial
  | false => exact ⟨hs, h b hb⟩

theorem parts_escapedTokens (str : List UInt8) (ts : List Token) :
    parts (escapedTokens str ++ ts) = (str ++ (parts ts).1, (parts ts).2) := by
  induction str with
  | nil => rfl
  | cons b str ih =>
    rw [escapedTokens, List.map_cons, List.cons_append, ← escapedTokens]
    split_ifs <;> rw [parts, ih, List.cons_append]

theorem spell_quotedTokens (ssid pwd : List UInt8) :
    spell (quotedTokens ssid pwd) = quoted ssid pwd := by
  simp [quotedTokens, quoted, spell_append, spell_escapedTokens, Token.spell]

theorem cost_quotedTokens (ssid pwd : List UInt8) :
    cost (quotedTokens ssid pwd) = 10 + (escaped ssid).length + (escaped pwd).length := by
  simp only [quotedTokens, cost_cons, cost_append, cost_escapedTokens, cost_nil, Token.cost]
  omega

theorem quotedTokens_valid (h : Credentials ssid pwd) :
    ∀ t ∈ quotedTokens ssid pwd, Token.Valid t := by
  have hssid := escapedTokens_valid fun b hb => (h.ssid_plain b hb).1
  have hpwd := escapedTokens_valid fun b hb => (h.pwd_plain b hb).1
  intro t ht
  simp only [quotedTokens, List.mem_cons, List.mem_append, List.not_mem_nil, or_false] at ht
  rcases ht with rfl | ht | rfl | rfl | rfl | ht | rfl
  · trivial
  · exact hssid t ht
  · trivial
  · trivial
  · trivial
  · exact hpwd t ht
  · trivial

theorem parts_quotedTokens (ssid pwd : List UInt8) :
    parts (quotedTokens ssid pwd) = (ssid, [pwd]) := by
  rw [quotedTokens, parts, parts_escapedTokens, parts, parts, parts, parts_escapedTokens, parts,
    parts, List.append_nil, List.append_nil]

/-- A string with no zero, laid over zeros that it does not fill. -/
theorem cString_overlay (hstr : ∀ b ∈ str, b ≠ 0) (hlen : str.length < atParaMaxSize) :
    cString (overlay (List.replicate atParaMaxSize 0) str) = str := by
  obtain ⟨k, hk⟩ : ∃ k, atParaMaxSize - str.length = k + 1 := ⟨_, (Nat.succ_pred (by omega)).symm⟩
  rw [overlay, List.drop_replicate, hk, List.replicate_succ, Config.cString_terminated]
  exact List.takeWhile_eq_self_iff.mpr fun b hb => by simpa using hstr b hb

theorem quoted_fits (h : Credentials ssid pwd) : PartsFit (quotedTokens ssid pwd) := by
  have hs := h.ssid_le
  have hp := h.pwd_le
  rw [PartsFit, parts_quotedTokens, atParaMaxSize]
  dsimp only
  refine ⟨by omega, fun part hpart => ?_⟩
  rw [List.mem_singleton.mp hpart]
  omega

theorem quoted_strings (h : Credentials ssid pwd) :
    cString (ssidOf (quotedTokens ssid pwd)) = ssid ∧
      cString (pwdOf (quotedTokens ssid pwd)) = pwd := by
  have hs := h.ssid_le
  have hp := h.pwd_le
  have h64 : 63 < atParaMaxSize := by decide
  have hssid := cString_overlay (fun b hb => (h.ssid_plain b hb).2.2) (by omega)
  have hpwd := cString_overlay (fun b hb => (h.pwd_plain b hb).2.2) (by omega)
  rw [ssidOf, pwdOf, parts_quotedTokens]
  exact ⟨hssid, hpwd⟩

end

/-! ## The lines of `AT+CWJAP` -/

/-- The text ends with the `<CR>` of the line before the limit, or reaches the limit inside the
line; what is stored fits the record, and what is copied the members of the callback. -/
def Scanned (behind para : List UInt8) : Prop :=
  ∃ ts rest, (∀ t ∈ ts, Token.Valid t) ∧ para = spell ts ++ rest ∧ cost ts < ssidPskLimit ∧
    ((∃ next, rest = atCr :: next :: behind ∧ PartsFit ts ∧ StringsFit ts) ∨
      ∃ t rest', Token.Valid t ∧ rest = t.spell ++ rest' ∧ ssidPskLimit ≤ cost ts + t.cost ∧
        behind.length ≤ rest'.length ∧ PartsFit (ts ++ [t]))

/-- A name and a password in quotes are not too long together, and the line does not end with a
`<LF>` alone. -/
structure JoinFits (behind para : List UInt8) : Prop where
  scanned : Scanned behind para
  counted : ∀ ssid pwd e, Credentials ssid pwd → LineEnd behind e → para = quoted ssid pwd ++ e →
    (escaped ssid).length + (escaped pwd).length < 88 ∧ e.head? = some atCr

section
variable {cb : HandleCb} {w : World} {ts : List Token} {t : Token}
  {behind para rest ssid pwd e : List UInt8}

/-- The only `<CR>` with a byte of the line behind it is its end. -/
theorem inLine_cr {u : List UInt8} : InLine behind (u ++ atCr :: rest) →
    behind.length < rest.length → ∃ next, rest = next :: behind := by
  induction u with
  | nil =>
    intro h _
    rw [List.nil_append] at h
    generalize hl : atCr :: rest = line at h
    cases h with
    | lf => exact absurd (List.cons.inj hl).1 (by decide)
    | cr next => exact ⟨next, (List.cons.inj hl).2⟩
    | cons hcr _ _ => exact absurd (List.cons.inj hl).1.symm hcr
  | cons x u ih =>
    intro h hlen
    rw [List.cons_append] at h
    generalize hl : x :: (u ++ atCr :: rest) = line at h
    have hlong : behind.length + 1 < (u ++ atCr :: rest).length := by
      rw [List.length_append, List.length_cons]
      omega
    cases h with
    | lf =>
      rw [(List.cons.inj hl).2] at hlong
      omega
    | cr next =>
      rw [(List.cons.inj hl).2, List.length_cons] at hlong
      omega
    | cons _ _ hp => exact ih ((List.cons.inj hl).2 ▸ hp) hlen

/-- The handler behind a text that ends with a `<CR>` before the limit. -/
theorem joinApHandler_cr (hts : ∀ t ∈ ts, Token.Valid t) (hcost : cost ts < ssidPskLimit)
    (hfit : PartsFit ts) :
    let r := joinApHandler (some cb) w (atEqu :: (spell ts ++ atCr :: rest))
    (Safe behind r.log ↔ behind.length < rest.length ∧ StringsFit ts) ∧
      ((cString (ssidOf ts)).length < 33 → r.called = some (.cwjapCur,
        some (.joinParam (cString (ssidOf ts)) (cString (pwdOf ts))))) := by
  have hsafe := @atGetSsidPsk_cr_safe ts behind rest hts hcost
  obtain ⟨hlen, heq⟩ := cString_member (ssidOf_length hfit) (pwdOf ts)
  rw [joinApHandler_equ]
  rw [atGetSsidPsk_cr hts hcost] at hsafe ⊢
  dsimp only at hsafe ⊢
  rw [if_neg (by simp), take_zero hfit, List.drop_left' (ssidOf_length hfit)]
  constructor
  · rw [atJoinAp_safe_iff, hsafe, hlen, and_iff_left hfit]
    rfl
  · intro hlt
    rw [heq hlt]
    exact atJoinAp_called hlt

theorem joinApHandler_stopped (h : (atGetSsidPsk para).ok = false) :
    joinApHandler (some cb) w (atEqu :: para) = w.stop .paraError (atGetSsidPsk para).log := by
  rw [joinApHandler_equ]
  exact if_pos h

/-- A command in bounds has read its text in bounds, and where it does not come to the callback it
has not come to `at_join_ap` either. -/
theorem joinApHandler_safe (h : Safe behind (joinApHandler (some cb) w (atEqu :: para)).log) :
    Safe behind (atGetSsidPsk para).log ∧
      ((joinApHandler (some cb) w (atEqu :: para)).called = none →
        (joinApHandler (some cb) w (atEqu :: para)).world = w) := by
  cases hok : (atGetSsidPsk para).ok with
  | false =>
    rw [joinApHandler_stopped hok] at h ⊢
    exact ⟨h, fun _ => rfl⟩
  | true =>
    rw [joinApHandler_equ] at h ⊢
    dsimp only at h ⊢
    have hgo : ¬(atGetSsidPsk para).ok = false := by simp [hok]
    rw [if_neg hgo] at h ⊢
    obtain ⟨hlog, hssid, -⟩ := atJoinAp_safe_iff.mp h
    refine ⟨hlog, fun hc => ?_⟩
    dsimp only at hc
    rw [atJoinAp_called hssid] at hc
    exact absurd hc.symm (Option.some_ne_none _).symm

/-- The line is copied in bounds exactly when its text is, and the two strings. -/
theorem joinApHandler_safe_iff (h : InLine behind para) :
    Safe behind (joinApHandler (some cb) w (atEqu :: para)).log ↔ Scanned behind para := by
  constructor
  · intro hs
    have hscan := (joinApHandler_safe hs).1
    obtain ⟨ts, rest, hts, rfl, hcost, hend⟩ :=
      exists_tokens para.length para (Nat.le_refl _) 0 (by decide)
    rw [Nat.zero_add] at hcost hend
    refine ⟨ts, rest, hts, rfl, hcost, ?_⟩
    rcases hend with ⟨rest, rfl⟩ | ⟨t, rest, ht, rfl, hfull⟩ | hend
    · obtain ⟨hin, hfit⟩ := (atGetSsidPsk_cr_safe hts hcost).mp hscan
      obtain ⟨next, rfl⟩ := inLine_cr h hin
      exact .inl ⟨next, rfl, hfit, ((joinApHandler_cr hts hcost hfit).1.mp hs).2⟩
    · obtain ⟨hin, hfit⟩ := (atGetSsidPsk_limit_safe hts ht hcost hfull).mp hscan
      exact .inr ⟨t, rest, ht, rfl, hfull, hin, hfit⟩
    · exact absurd hscan (atGetSsidPsk_nil hts hcost hend)
  · rintro ⟨ts, rest, hts, rfl, hcost, hend⟩
    rcases hend with ⟨next, rfl, hfit, hstr⟩ | ⟨t, rest, ht, rfl, hfull, hin, hfit⟩
    · exact (joinApHandler_cr hts hcost hfit).1.mpr ⟨Nat.lt_succ_self _, hstr⟩
    · rw [joinApHandler_stopped (atGetSsidPsk_limit hts ht hcost hfull).1, stop_log]
      exact (atGetSsidPsk_limit_safe hts ht hcost hfull).mpr ⟨hin, hfit⟩

/-! ### Names and passwords in quotes -/

theorem ssidPskLoop_not_ok (hts : ∀ t ∈ ts, Token.Valid t) (rest : List UInt8) :
    ∀ (i : Nat) (j : JoinParam), ssidPskLimit ≤ i + cost ts →
      (ssidPskLoop (spell ts ++ rest) i j).ok = false := by
  induction ts with
  | nil =>
    intro i j hfull
    exact congrArg SsidPsk.ok (ssidPskLoop_full hfull _)
  | cons t ts ih =>
    obtain ⟨ht, hts⟩ := List.forall_mem_cons.mp hts
    intro i j hfull
    by_cases hi : i < ssidPskLimit
    · rw [spell_cons, List.append_assoc, ssidPskLoop_token ht hi]
      rw [cost_cons, ← Nat.add_assoc] at hfull
      exact ih hts (i + t.cost) (j.take t) hfull
    · exact congrArg SsidPsk.ok (ssidPskLoop_full (Nat.le_of_not_lt hi) _)

/-- A text that reaches the limit is refused. -/
theorem joinApHandler_full (hts : ∀ t ∈ ts, Token.Valid t) (hfull : ssidPskLimit ≤ cost ts) :
    (joinApHandler (some cb) w (atEqu :: (spell ts ++ rest))).called = none := by
  rw [joinApHandler_stopped (ssidPskLoop_not_ok hts rest 0 .zero (by omega)), stop_called]

theorem ssidPskLoop_reads {i : Nat} (j : JoinParam) (hi : i < ssidPskLimit) (para : List UInt8) :
    .read para ∈ (ssidPskLoop para i j).log := by
  cases para with
  | nil => simp [ssidPskLoop, hi]
  | cons b para =>
    by_cases hb : b = atBackslash
    · rw [ssidPskLoop.eq_def]
      simp [hi, SsidPsk.after]
    · rw [ssidPskLoop_byte hi hb]
      simp [SsidPsk.after]

/-- A `<LF>` is a byte like another. -/
theorem valid_lf (hts : ∀ t ∈ ts, Token.Valid t) : ∀ t ∈ ts ++ [.byte atLf], Token.Valid t := by
  intro t ht
  rcases List.mem_append.mp ht with ht | ht
  · exact hts t ht
  · rw [List.mem_singleton.mp ht]
    exact ⟨by decide, by decide⟩

/-- A text in front of a `<LF>` that does not reach the limit: the loop goes on behind the line. -/
theorem joinApHandler_lf (hts : ∀ t ∈ ts, Token.Valid t) (hcost : cost ts + 1 < ssidPskLimit) :
    ¬Safe behind (joinApHandler (some cb) w (atEqu :: (spell ts ++ atLf :: behind))).log := by
  intro hs
  have hspell : spell ts ++ atLf :: behind = spell (ts ++ [Token.byte atLf]) ++ behind := by
    simp [spell_append, Token.spell]
  have hcost' : 0 + cost (ts ++ [Token.byte atLf]) < ssidPskLimit := by
    simpa [cost_append, Token.cost] using hcost
  have hscan := (joinApHandler_safe hs).1
  rw [hspell, atGetSsidPsk, ssidPskLoop_tokens (valid_lf hts) behind 0 .zero hcost'] at hscan
  have hread := ssidPskLoop_reads ((ts ++ [Token.byte atLf]).foldl JoinParam.take .zero) hcost'
    behind
  exact not_safe_of_read hread (safe_append.mp hscan).2

/-- What is counted for a name and a password in quotes. -/
theorem quoted_counted : cost (quotedTokens ssid pwd) < ssidPskLimit ↔
    (escaped ssid).length + (escaped pwd).length < 88 := by
  rw [cost_quotedTokens, show ssidPskLimit = 98 from rfl]
  omega

theorem joinApHandler_quoted (hc : Credentials ssid pwd)
    (hcount : (escaped ssid).length + (escaped pwd).length < 88) (rest : List UInt8) :
    (joinApHandler (some cb) w (atEqu :: (quoted ssid pwd ++ atCr :: rest))).called =
      some (.cwjapCur, some (.joinParam ssid pwd)) := by
  obtain ⟨hssid, hpwd⟩ := quoted_strings hc
  have hle := hc.ssid_le
  have hcall := (@joinApHandler_cr cb w (quotedTokens ssid pwd) [] rest (quotedTokens_valid hc)
    (quoted_counted.mpr hcount) (quoted_fits hc)).2 (by rw [hssid]; omega)
  rwa [hssid, hpwd, spell_quotedTokens] at hcall

/-- A line in bounds whose name and password come to the callback. -/
theorem counted_of_called (hc : Credentials ssid pwd) (he : LineEnd behind e)
    (hs : Safe behind (joinApHandler (some cb) w (atEqu :: (quoted ssid pwd ++ e))).log)
    (hcall : (joinApHandler (some cb) w (atEqu :: (quoted ssid pwd ++ e))).called ≠ none) :
    (escaped ssid).length + (escaped pwd).length < 88 ∧ e.head? = some atCr := by
  have hvalid := quotedTokens_valid hc
  rw [← spell_quotedTokens] at hs hcall
  have hcount : cost (quotedTokens ssid pwd) < ssidPskLimit := by
    by_contra hfull
    exact hcall (joinApHandler_full hvalid (Nat.le_of_not_lt hfull))
  refine ⟨quoted_counted.mp hcount, ?_⟩
  rcases he with rfl | ⟨next, rfl⟩
  · by_cases hlast : cost (quotedTokens ssid pwd) + 1 < ssidPskLimit
    · exact absurd hs (joinApHandler_lf hvalid hlast)
    · have hfull : ssidPskLimit ≤ cost (quotedTokens ssid pwd ++ [Token.byte atLf]) := by
        rw [cost_append]
        exact Nat.le_of_not_lt hlast
      have hnone := @joinApHandler_full cb w _ behind (valid_lf hvalid) hfull
      rw [spell_append, List.append_assoc] at hnone
      exact absurd hnone hcall
  · rfl

end

/-! ## The texts of the tables -/

section
variable {behind para : List UInt8} {size opt : Nat}

/-- A text that a getter takes is below its limit, and its field has room for it and its end. -/
theorem getPara_stored {d : Descriptor} (hd : d.pt = .text) (h : (getPara d para).error = false) :
    (getPara d para).value.length < sizeLimit d.option ∧
      .pvar d.size ((getPara d para).value.length + 1) ∈ (getPara d para).log := by
  obtain ⟨pt, size, opt⟩ := d
  obtain rfl : pt = .text := hd
  have hget : getPara ⟨.text, size, opt⟩ para = getTextPara size opt para := rfl
  rw [hget] at h ⊢
  simp only [getTextPara, Scan.got, Bool.not_eq_false', decide_eq_true_eq] at h ⊢
  simp [h]

theorem paraLoop_stored (list : List Descriptor) : ∀ para : List UInt8,
    (paraLoop list para).error = false → ∀ (k : Nat) (v : List UInt8),
      (paraLoop list para).values[k]? = some v → ∃ d, list[k]? = some d ∧
        (d.pt = .text → v.length < sizeLimit d.option ∧
          .pvar d.size (v.length + 1) ∈ (paraLoop list para).log) := by
  induction list with
  | nil =>
    intro para _ k v hv
    simp [paraLoop] at hv
  | cons d list ih =>
    intro para h k v hv
    rw [paraLoop] at h hv ⊢
    dsimp only at h hv ⊢
    split_ifs at h hv ⊢ with herr hover
    · cases k with
      | zero =>
        obtain rfl : (getPara d para).value = v := by simpa using hv
        exact ⟨d, rfl, fun hd => getPara_stored hd (by simpa using herr)⟩
      | succ k => simp at hv
    · cases k with
      | zero =>
        obtain rfl : (getPara d para).value = v := by simpa using hv
        refine ⟨d, rfl, fun hd => ?_⟩
        obtain ⟨hlt, hmem⟩ := getPara_stored hd (by simpa using herr)
        exact ⟨hlt, List.mem_append_left _ hmem⟩
      | succ k =>
        obtain ⟨d', hd', hstored⟩ := ih _ h k v (by simpa using hv)
        refine ⟨d', by simpa using hd', fun hd => ?_⟩
        obtain ⟨hlt, hmem⟩ := hstored hd
        exact ⟨hlt, List.mem_append_right _ hmem⟩

/-- The string in a text field of the record. -/
theorem text_stored {list : List Descriptor} {k : Nat} (hd : list[k]? = some (text size opt))
    (hsize : 0 < size) (hopt : 0 < sizeLimit opt) (h : (paraLoop list para).error = false) :
    (cString ((paraLoop list para).values.getD k [])).length < sizeLimit opt ∧
      (Safe behind (paraLoop list para).log →
        (cString ((paraLoop list para).values.getD k [])).length < size) := by
  rw [List.getD_eq_getElem?_getD]
  cases hv : (paraLoop list para).values[k]? with
  | none => exact ⟨hopt, fun _ => hsize⟩
  | some v =>
    obtain ⟨d, hd', hstored⟩ := paraLoop_stored list para h k v hv
    obtain rfl : text size opt = d := Option.some.inj (hd.symm.trans hd')
    obtain ⟨hlt, hmem⟩ := hstored rfl
    have hle := Config.length_cString_le v
    refine ⟨Nat.lt_of_le_of_lt hle hlt, fun hs => ?_⟩
    have hin : v.length + 1 ≤ size := hs _ hmem
    rw [Option.getD_some]
    omega

variable {w : World} {list : List Descriptor} {count : Nat}
  {next : List (List UInt8) → List Access → Ran}

/-- A command with one table that fits is in bounds where its copies are. -/
theorem parse_safe_iff (h : InLine behind para) (hne : list ≠ []) (hfits : tableFits list = true) :
    Safe behind (w.parse list count (atEqu :: para) next).log ↔
      ((paraLoop list para).error = false → count ≤ (paraLoop list para).values.length →
        Safe behind (next (paraLoop list para).values (paraLoop list para).log).log) := by
  have hsafe : Safe behind (paraLoop list para).log := paraLoop_safe list hfits para h
  have hhead : ¬(atEqu :: para).head? ≠ some atEqu := fun hh => hh rfl
  rw [World.parse, if_neg hhead, List.tail_cons, atGetParameters, if_neg hne]
  dsimp only
  split_ifs with hstop
  · rw [stop_log]
    refine iff_of_true hsafe fun herr hcount => ?_
    rcases hstop with hstop | hstop
    · exact absurd hstop (by simp [herr])
    · omega
  · simp only [not_or, Bool.not_eq_true, Nat.not_lt] at hstop
    exact ⟨fun hs _ _ => hs, fun hs => hs hstop.1 hstop.2⟩

end

/-! ## The lines of the other commands -/

section
variable {cb : HandleCb} {w : World} {behind para : List UInt8}

/-- The two texts of `AT+CWSAP_DEF` have fifteen bytes at most. -/
theorem setApcfgHandler_safe (h : InLine behind para) :
    Safe behind (setApcfgHandler (some cb) w (atEqu :: para)).log := by
  rw [setApcfgHandler, parse_safe_iff h (by decide) (by decide)]
  intro herr _
  have hsafe : Safe behind (paraLoop apcfgList para).log := paraLoop_safe _ (by decide) para h
  have hlimit : sizeLimit apcfgOpt = 16 := by decide
  obtain ⟨hssid, -⟩ := @text_stored behind para 64 apcfgOpt apcfgList 0 rfl (by decide) (by decide)
    herr
  obtain ⟨hpsk, -⟩ := @text_stored behind para 64 apcfgOpt apcfgList 1 rfl (by decide) (by decide)
    herr
  rw [hlimit] at hssid hpsk
  rw [atSetAp, call_log]
  simp only [safe_append, memcpy_safe, safe_cons, pvar_inside, atParaMaxSize, sysinfoSsidLenMax,
    sysinfoPskLenMax]
  refine ⟨⟨hsafe, ⟨?_, ?_⟩, ?_, ?_⟩, ⟨?_, ?_, Safe.nil⟩, ⟨?_, ?_⟩, ?_, ?_⟩ <;> omega

theorem hostnameOpt_limit : sizeLimit hostnameOpt = 64 := by decide

/-- The text that `AT+CWHOSTNAME` and `AT+CIPDOMAIN` take. -/
theorem hostname_taken (h : InLine behind para) :
    ((getPara (text 64 hostnameOpt) para).error = false ↔
      textOf para ≠ [] ∧ (textOf para).length < 64) ∧
    ((getPara (text 64 hostnameOpt) para).error = false →
      (getPara (text 64 hostnameOpt) para).value = textOf para) := by
  have hends : ∀ b, stops (text 64 hostnameOpt).pt b = isEnd b := fun b => by
    simp [stops, AtCmd.text]
  have htaken : (getPara (text 64 hostnameOpt) para).error = false →
      (getPara (text 64 hostnameOpt) para).value = textOf para ∧ textOf para ≠ [] ∧
        (textOf para).length < 64 := by
    intro herr
    obtain ⟨u, b, rest, rfl, hu, hb, -, ⟨hv, hne, hlt⟩, -, -⟩ := getPara_is_iff.mp (is_of_ok herr)
    simp only [hends] at hu hb
    rw [textOf_field hu hb, ← hv]
    exact ⟨rfl, hne, hostnameOpt_limit ▸ hlt⟩
  refine ⟨⟨fun herr => (htaken herr).2, ?_⟩, fun herr => (htaken herr).1⟩
  rintro ⟨hne, hlt⟩
  obtain ⟨u, b, rest, e, rfl, hu, he, -⟩ := h.field
  have hb := isEnd_of_paraEnd he
  rw [textOf_field hu hb] at hne hlt
  have hboth : (stopAt b rest).endType &&& hostnameOpt ≠ 0 := by
    rcases stopAt_endType b rest with ht | ht <;> rw [ht] <;> decide
  exact (getPara_is_iff.mpr ⟨u, b, rest, rfl, fun x hx => (hends x).trans (hu x hx),
    (hends b).trans hb, hboth, ⟨rfl, hne, hostnameOpt_limit.symm ▸ hlt⟩, rfl, rfl⟩).1

/-- A host name that is taken is at most 32 bytes up to a zero. -/
def HostnameFits (para : List UInt8) : Prop :=
  (textOf para).length < 64 → (cString (textOf para)).length < 33

theorem setHostnameHandler_safe_iff (h : InLine behind para) :
    Safe behind (setHostnameHandler (some cb) w (atEqu :: para)).log ↔ HostnameFits para := by
  obtain ⟨hok, hvalue⟩ := hostname_taken h
  obtain ⟨herror, -, hvalues⟩ := Config.atGetParameters_single (text 64 hostnameOpt) para
  have hsingle : atGetParameters [text 64 hostnameOpt] para =
      paraLoop [text 64 hostnameOpt] para := if_neg (List.cons_ne_nil _ _)
  rw [hsingle] at herror hvalues
  have hsafe : Safe behind (paraLoop [text 64 hostnameOpt] para).log :=
    paraLoop_safe _ (by decide) para h
  rw [setHostnameHandler, parse_safe_iff h (List.cons_ne_nil _ _) (by decide), HostnameFits,
    herror, hok]
  constructor
  · intro hs hlt
    by_cases hne : textOf para = []
    · rw [hne]
      decide
    · have herr := hok.mpr ⟨hne, hlt⟩
      rw [herr, if_neg Bool.false_ne_true] at hvalues
      have hcopy := hs ⟨hne, hlt⟩ (by rw [hvalues]; exact Nat.le_refl 1)
      rw [atSetHostname, call_log, safe_append, strcpy_safe, hvalues, List.getD_cons_zero,
        hvalue herr] at hcopy
      exact hcopy.2.2
  · rintro hfits ⟨hne, hlt⟩ -
    have herr := hok.mpr ⟨hne, hlt⟩
    rw [herr, if_neg Bool.false_ne_true] at hvalues
    have hstr := hfits hlt
    rw [atSetHostname, call_log, safe_append, strcpy_safe, hvalues, List.getD_cons_zero,
      hvalue herr, atParaMaxSize]
    exact ⟨hsafe, by omega, hstr⟩

theorem ipHostname_size : (fieldOf "ip_hostname").2 = 32 := by decide

theorem dnsHandler_safe (h : InLine behind para) :
    Safe behind (dnsHandler (some cb) w (atEqu :: para)).log := by
  rw [dnsHandler, parse_safe_iff h (List.cons_ne_nil _ _) (by decide)]
  intro _ _
  rw [atDomainQuery, call_log, safe_append, memcpy_safe, ipHostname_size]
  exact ⟨paraLoop_safe _ (by decide) para h, by decide⟩

theorem atCreateNetworkConnect_safe {netpara : NetworkPara} {log : List Access}
    (htype : netpara.type.length < 4) (hhost : Safe behind log → netpara.hostname.length < 64) :
    Safe behind (atCreateNetworkConnect (some cb) w netpara log).log ↔ Safe behind log := by
  rw [atCreateNetworkConnect, call_log, safe_append, and_iff_left_iff_imp]
  intro hs
  have hlt := hhost hs
  simp only [safe_append, strcpy_safe, atParaMaxSize]
  exact ⟨⟨htype, htype⟩, ⟨hlt, hlt⟩, htype, htype⟩

theorem bytesOf_type_length : (bytesOf "TCP").length < 4 ∧ (bytesOf "UDP").length < 4 := by decide

/-- The copies of a connection are in bounds where its parsing is. -/
theorem createTcpUdpHandler_safe_iff (h : InLine behind para) :
    Safe behind (createTcpUdpHandler (some cb) w (atEqu :: para)).log ↔
      ConnectFits behind para := by
  rw [← createTcpUdp_safe_iff (fun _ => none) h]
  have hrun : AtCmd.createTcpUdpHandler.run (fun _ => none) (atEqu :: para) =
      let p := paraLoop connectType2 para
      if p.error ∨ 4 < atAtoi (p.values.getD 0 []) then p.log
      else if cString (p.values.getD 1 []) = bytesOf "TCP" then
        p.log ++ (paraLoop connectList p.para).log
      else if cString (p.values.getD 1 []) = bytesOf "UDP" then
        p.log ++ (paraLoop connectList p.para).log
      else p.log := rfl
  have hlist : ∀ rest, atGetParameters connectList rest = paraLoop connectList rest :=
    fun rest => if_neg (List.cons_ne_nil _ _)
  have htype : atGetParameters connectType2 para = paraLoop connectType2 para :=
    if_neg (List.cons_ne_nil _ _)
  have hhead : ¬(atEqu :: para).head? ≠ some atEqu := fun hh => hh rfl
  rw [hrun, createTcpUdpHandler, if_neg hhead, List.tail_cons, htype]
  simp only [hlist]
  split_ifs with hstop htcp herr hudp herr
  · rw [stop_log]
  · rw [stop_log]
  · refine atCreateNetworkConnect_safe (htcp ▸ bytesOf_type_length.1) fun hs => ?_
    exact (text_stored rfl (by decide) (by decide) (by simpa using herr)).2 (safe_append.mp hs).2
  · rw [stop_log]
  · refine atCreateNetworkConnect_safe (hudp ▸ bytesOf_type_length.2) fun hs => ?_
    exact (text_stored rfl (by decide) (by decide) (by simpa using herr)).2 (safe_append.mp hs).2
  · rw [stop_log]

end

/-! ## All the commands -/

/-- What the argument of a command must keep to. -/
def Command.Fits (behind para : List UInt8) : Command → Prop
  | .joinAp => JoinFits behind para
  | .setHostname => HostnameFits para
  | .createTcpUdp => ConnectFits behind para
  | .setApcfg | .dns => True

/-- Every copy is in bounds; `AT+CWJAP` takes a name and a password in quotes to the callback, and
leaves `at_cfg` as it was where it does not come to the callback. -/
structure Intact (cb : HandleCb) (w : World) (behind : List UInt8) (c : Command)
    (para : List UInt8) : Prop where
  safe : Safe behind (c.run (some cb) w para).log
  received : c = .joinAp → ∀ ssid pwd e, Credentials ssid pwd → LineEnd behind e →
    para = atEqu :: (quoted ssid pwd ++ e) →
      (c.run (some cb) w para).called = some (.cwjapCur, some (.joinParam ssid pwd))
  unchanged : c = .joinAp → (c.run (some cb) w para).called = none →
    (c.run (some cb) w para).world.cfg = w.cfg

def blankWorld : World :=
  { cfg := Config.blankConfig,
    ap := { ssid := List.replicate sysinfoSsidLenMax 0, ssidLen := 0,
            psk := List.replicate sysinfoPskLenMax 0, channel := 0 } }

/-- A callback that takes everything. -/
def acceptAll : HandleCb := fun _ _ cfg => (.ok, cfg)

section
variable {cb : HandleCb} {w : World} {behind para : List UInt8} {c : Command}

theorem intact_of_ne (hc : c ≠ .joinAp) :
    Intact cb w behind c para ↔ Safe behind (c.run (some cb) w para).log :=
  ⟨Intact.safe, fun hs => ⟨hs, fun h => absurd h hc, fun h => absurd h hc⟩⟩

theorem intact_of_stop {ret : ErrorCode} (hc : c ≠ .joinAp)
    (h : c.run (some cb) w para = w.stop ret []) : Intact cb w behind c para := by
  rw [intact_of_ne hc, h, stop_log]
  exact Safe.nil

theorem joinAp_intact_iff (h : InLine behind para) :
    Intact cb w behind .joinAp (atEqu :: para) ↔ JoinFits behind para := by
  constructor
  · rintro ⟨hs, hreceived, -⟩
    refine ⟨(joinApHandler_safe_iff h).mp hs, ?_⟩
    rintro ssid pwd e hc he rfl
    have hcall := hreceived rfl ssid pwd e hc he rfl
    exact counted_of_called hc he hs (hcall ▸ Option.some_ne_none _)
  · rintro ⟨hscan, hcounted⟩
    have hs := (@joinApHandler_safe_iff cb w behind para h).mpr hscan
    refine ⟨hs, fun _ ssid pwd e hc he heq => ?_, fun _ hnone => ?_⟩
    · obtain rfl := (List.cons.inj heq).2
      obtain ⟨hcount, hcr⟩ := hcounted ssid pwd e hc he rfl
      rcases he with rfl | ⟨next, rfl⟩
      · exact absurd (Option.some.inj hcr) (by decide)
      · exact joinApHandler_quoted hc hcount (next :: behind)
    · exact congrArg World.cfg ((joinApHandler_safe hs).2 hnone)

/-- A name and a password that are taken: at most 32 bytes each, and less than 88 with their
backslashes. -/
theorem joinFits_quoted {ssid pwd : List UInt8} (hc : Credentials ssid pwd)
    (hpwd : pwd.length ≤ 32) (hcount : (escaped ssid).length + (escaped pwd).length < 88)
    (next : UInt8) (hline : InLine behind (quoted ssid pwd ++ atCr :: next :: behind)) :
    JoinFits behind (quoted ssid pwd ++ atCr :: next :: behind) := by
  obtain ⟨hs, hp⟩ := quoted_strings hc
  have hle := hc.ssid_le
  have hscan : Scanned behind (quoted ssid pwd ++ atCr :: next :: behind) := by
    refine ⟨quotedTokens ssid pwd, _, quotedTokens_valid hc, by rw [spell_quotedTokens],
      quoted_counted.mpr hcount, .inl ⟨next, rfl, quoted_fits hc, ?_⟩⟩
    rw [StringsFit, hs, hp]
    omega
  refine ⟨hscan, fun ssid' pwd' e hc' he heq => ?_⟩
  have hsafe := (@joinApHandler_safe_iff acceptAll blankWorld behind _ hline).mpr hscan
  have hcall := @joinApHandler_quoted acceptAll blankWorld ssid pwd hc hcount (next :: behind)
  rw [heq] at hsafe hcall
  exact counted_of_called hc' he hsafe (hcall ▸ Option.some_ne_none _)

/-- A command from the end of its name on. -/
theorem Command.intact_equ_iff (h : InLine behind para) :
    Intact cb w behind c (atEqu :: para) ↔ c.Fits behind para := by
  cases c with
  | joinAp => exact joinAp_intact_iff h
  | setApcfg =>
    rw [intact_of_ne Command.noConfusion]
    exact iff_of_true (setApcfgHandler_safe h) trivial
  | setHostname =>
    rw [intact_of_ne Command.noConfusion]
    exact setHostnameHandler_safe_iff h
  | dns =>
    rw [intact_of_ne Command.noConfusion]
    exact iff_of_true (dnsHandler_safe h) trivial
  | createTcpUdp =>
    rw [intact_of_ne Command.noConfusion]
    exact createTcpUdpHandler_safe_iff h

/-- With no `=` behind the name there is nothing to copy. -/
theorem Command.intact_ne (h : para.head? ≠ some atEqu) : Intact cb w behind c para := by
  cases c with
  | joinAp =>
    obtain ⟨hlog, hworld⟩ := @joinApHandler_ne cb w para h
    refine ⟨hlog.symm ▸ Safe.nil, ?_, fun _ hnone => congrArg World.cfg (hworld hnone)⟩
    rintro - ssid pwd e - - rfl
    exact absurd rfl h
  | setApcfg => exact intact_of_stop Command.noConfusion (if_pos h)
  | setHostname => exact intact_of_stop Command.noConfusion (if_pos h)
  | dns => exact intact_of_stop Command.noConfusion (if_pos h)
  | createTcpUdp => exact intact_of_stop Command.noConfusion (if_pos h)

/-- The rows are those of `at_command_table`. -/
theorem commandTable_handlers :
    ∀ row ∈ commandTable, atMatch (bytesOf row.1) = some row.2.handler := by
  decide

/-- The command is the one that `at_parse_cmd` calls. -/
theorem dispatch_handler {cmdline : List UInt8} {size : Nat}
    (h : dispatch cmdline size = some (c, para)) :
    ∃ cmd, cmdName size cmdline [] = some (cmd, para) ∧ atMatch cmd = some c.handler := by
  unfold dispatch at h
  split at h
  · exact absurd h.symm (Option.some_ne_none _)
  · rename_i cmd cptr hname
    obtain ⟨row, hrow, heq⟩ := Option.map_eq_some_iff.mp h
    obtain ⟨rfl, rfl⟩ := Prod.mk.inj heq
    have hcmd : cString cmd = bytesOf row.1 := by simpa using List.find?_some hrow
    have hmem := commandTable_handlers row (List.mem_of_find?_eq_some hrow)
    refine ⟨cmd, hname, ?_⟩
    have hsame : cString (bytesOf row.1) = bytesOf row.1 := by
      rw [← hcmd]
      exact List.takeWhile_idem
    rw [← hmem, atMatch, atMatch, hcmd, hsame]

end

/-- A line is copied in bounds and comes to the callback as it was meant exactly when it fits. -/
theorem text_intact_iff (cb : HandleCb) (w : World) (line behind : List UInt8) (size : Nat)
    (c : Command) (para : List UInt8) (hline : InLine [] line) (hsize : line.length ≤ size)
    (hdispatch : dispatch (line ++ behind) size = some (c, para)) :
    Intact cb w behind c para ↔ ∀ arg, para = atEqu :: arg → c.Fits behind arg := by
  obtain ⟨cmd, hname, -⟩ := dispatch_handler hdispatch
  have hlen : (line ++ behind).length ≤ size + behind.length := by
    rw [List.length_append]
    omega
  rcases cmdName_inLine _ (hline.append behind) size [] hlen with
    hnone | ⟨cmd', b, rest, -, -, -, hin, -, hsome⟩
  · exact absurd (hnone.symm.trans hname) (Option.some_ne_none _).symm
  obtain ⟨-, rfl⟩ := Prod.mk.inj (Option.some.inj (hsome.symm.trans hname))
  by_cases hb : b = atEqu
  · subst hb
    rw [Command.intact_equ_iff (hin.tail (by decide) (by decide))]
    constructor
    · rintro hfits arg heq
      exact (List.cons.inj heq).2 ▸ hfits
    · exact fun hfits => hfits rest rfl
  · have hhead : (b :: rest).head? ≠ some atEqu := fun h => hb (Option.some.inj h)
    refine iff_of_true (Command.intact_ne hhead) fun arg heq => ?_
    exact absurd (List.cons.inj heq).1 hb

set_option maxRecDepth 8000 in
/-- `AT+CWJAP="my,net","secret"` with a backslash in front of the comma. -/
theorem text_intact_join :
    Intact acceptAll blankWorld [] .joinAp
      (atEqu :: (quoted (bytesOf "my,net") (bytesOf "secret") ++ [atCr, atLf])) := by
  have hline : InLine [] (quoted (bytesOf "my,net") (bytesOf "secret") ++ [atCr, atLf]) :=
    InLine.prepend (by decide) (.cr atLf)
  refine (text_intact_iff acceptAll blankWorld
    (bytesOf "AT+CWJAP=" ++ (quoted (bytesOf "my,net") (bytesOf "secret") ++ [atCr, atLf])) [] 64
    .joinAp _ (InLine.prepend (by decide) hline) (by decide)
    (by decide)).mpr fun arg heq => ?_
  obtain rfl := (List.cons.inj heq).2
  exact joinFits_quoted ⟨by decide, by decide, by decide, by decide, by decide⟩
    (by decide) (by decide) atLf hline

set_option maxRecDepth 8000 in
/-- A password of 33 bytes: its end is copied behind `joinParam.pwd`. -/
theorem long_password_overruns : ¬∀ (cb : HandleCb) (w : World) (line behind : List UInt8)
    (size : Nat) (c : Command) (para : List UInt8), InLine [] line → line.length ≤ size →
      dispatch (line ++ behind) size = some (c, para) → Intact cb w behind c para := by
  intro h
  have hintact := h acceptAll blankWorld
    (bytesOf "AT+CWJAP=" ++
      (quoted (bytesOf "net") (List.replicate 33 0x61) ++ [atCr, atLf])) [] 64 .joinAp
    (atEqu :: (quoted (bytesOf "net") (List.replicate 33 0x61) ++ [atCr, atLf]))
    (InLine.prepend (by decide) (InLine.prepend (by decide) (.cr atLf)))
    (by decide) (by decide)
  exact absurd hintact.safe (by decide)

end Extend
end AtCmd
end XR806
