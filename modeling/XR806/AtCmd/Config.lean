import Mathlib.Data.List.TakeWhile
import XR806.AtCmd.Bounds
import XR806.AtCmd.Fields

/-!
# XR806.AtCmd.Config

`at_config.c` and `setcfg_handler`: the variables of `at_cfg`, how they are printed and how they
are set. `at_cfg` is one block of memory, so that a text longer than its field runs into the fields
behind it.

What is printed for an address or a decimal integer sets the same value again, and so does a text
unless it is empty; an integer in hexadecimal is printed with a prefix and hexadecimal data with
colons, and neither is taken back (`config_round_trip_iff`).
-/

namespace XR806
namespace AtCmd
namespace Config

/-! ## The memory of `at_cfg` -/

/-- The fields of `at_config_t` with their sizes and alignments. -/
def atConfigT : List (String × Nat × Nat) :=
  [("CIPMUX", 4, 4), ("apDhcp", 4, 4), ("staDhcp", 4, 4), ("link_type", 20, 4),
   ("nv_manuf", 32, 1), ("nv_model", 32, 1), ("nv_serial", 32, 1), ("nv_wifi_macaddr", 6, 1),
   ("blink_led", 4, 4), ("wind_off_low", 4, 4), ("wind_off_medium", 4, 4),
   ("wind_off_high", 4, 4), ("user_desc", 64, 1), ("escape_seq", 8, 1), ("localecho1", 4, 4),
   ("console1_speed", 4, 4), ("console1_hwfc", 4, 4), ("console1_enabled", 4, 4),
   ("sleep_enabled", 4, 4), ("standby_enabled", 4, 4), ("standby_time", 4, 4),
   ("wifi_tx_msdu_lifetime", 4, 4), ("wifi_rx_msdu_lifetime", 4, 4),
   ("wifi_operational_mode", 4, 4), ("wifi_beacon_wakeup", 4, 4), ("wifi_beacon_interval", 4, 4),
   ("wifi_listen_interval", 4, 4), ("wifi_rts_threshold", 4, 4), ("wifi_ssid", 33, 1),
   ("wifi_ssid_len", 4, 4), ("wifi_channelnum", 4, 4), ("wifi_opr_rate_mask", 4, 4),
   ("wifi_bas_rate_mask", 4, 4), ("wifi_mode", 4, 4), ("wifi_auth_type", 4, 4),
   ("wifi_powersave", 4, 4), ("wifi_tx_power", 4, 4), ("wifi_rssi_thresh", 4, 4),
   ("wifi_rssi_hyst", 4, 4), ("wifi_ap_idle_timeout", 4, 4), ("wifi_beacon_loss_thresh", 4, 4),
   ("wifi_priv_mode", 4, 4), ("wifi_wep_keys", 64, 1), ("wifi_wep_key_lens", 4, 1),
   ("wifi_wep_default_key", 4, 4), ("wifi_wpa_psk_raw", 32, 1), ("wifi_wpa_psk_text", 65, 1),
   ("ip_use_dhcp", 4, 4), ("ip_use_httpd", 4, 4), ("ip_mtu", 4, 4), ("ip_hostname", 32, 1),
   ("ip_apdomainname", 32, 1), ("ip_ipaddr", 4, 1), ("ip_netmask", 4, 1), ("ip_gw", 4, 1),
   ("ip_dns", 4, 1), ("ip_http_get_recv_timeout", 4, 4), ("ip_dhcp_timeout", 4, 4),
   ("ip_sockd_timeout", 4, 4)]

/-- Where each field stands, from `off` on: its name, offset and size. -/
def layout : Nat → List (String × Nat × Nat) → List (String × Nat × Nat)
  | _, [] => []
  | off, (name, size, align) :: fields =>
    let off := (off + align - 1) / align * align
    (name, off, size) :: layout (off + size) fields

/-- The offset and the size of a field. -/
def fieldOf (name : String) : Nat × Nat :=
  (((layout 0 atConfigT).find? (·.1 = name)).map (·.2)).getD (0, 0)

/-- `sizeof(at_config_t)`. -/
def atConfigSize : Nat := 644

structure AtConfig where
  bytes : List UInt8
  size : bytes.length = atConfigSize

/-- Stores behind the end of `at_cfg` are dropped. -/
def AtConfig.store (cfg : AtConfig) (off : Nat) (bs : List UInt8) : AtConfig where
  bytes := (cfg.bytes.take off ++ bs ++ cfg.bytes.drop (off + bs.length)).take atConfigSize
  size := by
    have h := cfg.size
    simp only [List.length_take, List.length_append, List.length_drop, h]
    omega

def AtConfig.load (cfg : AtConfig) (off n : Nat) : List UInt8 := (cfg.bytes.drop off).take n

/-- A string from `off` on. -/
def AtConfig.str (cfg : AtConfig) (off : Nat) : List UInt8 := cString (cfg.bytes.drop off)

/-! ## Values -/

/-- A word of 32 bits as it stands in memory. -/
def u32Bytes (n : Nat) : List UInt8 :=
  [UInt8.ofNat n, UInt8.ofNat (n / 256), UInt8.ofNat (n / 65536), UInt8.ofNat (n / 16777216)]

def u32Of (bs : List UInt8) : Nat :=
  (bs.getD 0 0).toNat + 256 * (bs.getD 1 0).toNat + 65536 * (bs.getD 2 0).toNat +
    16777216 * (bs.getD 3 0).toNat

/-- An `at_di_t`. -/
def diOf (bs : List UInt8) : Int :=
  if u32Of bs < 2147483648 then (u32Of bs : Int) else (u32Of bs : Int) - 4294967296

/-- `sscanf(strbuf, "%x", ..)`, which stops at the largest word. -/
def sscanfX (str : List UInt8) : Nat :=
  min (str.foldl (fun n ch => n * 16 + (hexToNum ch).toNat) 0) 4294967295

/-- The bytes of `at_value_t`, which all its members start at. -/
abbrev AtValue := List UInt8

def AtValue.zero : AtValue := List.replicate atParaMaxSize 0

/-- What a getter leaves at `pvar` for the bytes that it has put into `strbuf`. -/
def written (d : Descriptor) (value : List UInt8) : List UInt8 :=
  match d.pt with
  | .text => value ++ [0]
  | .hex => value ++ List.replicate (sizeLimit d.option - value.length) 0
  | .di => u32Bytes (atAtoi value)
  | .hi => u32Bytes (sscanfX value)
  | .ip => value

/-- `pvar` after the getter. -/
def overlay (pvar bs : List UInt8) : List UInt8 := bs ++ pvar.drop bs.length

/-! ## Printing -/

/-- `%d` of a number that is not negative. -/
def printNat (n : Nat) : List UInt8 := (Nat.toDigits 10 n).map fun c => UInt8.ofNat c.toNat

def printDi (di : Int) : List UInt8 :=
  if di < 0 then 0x2d :: printNat (-di).toNat else printNat di.toNat

def hexDigit (n : Nat) : UInt8 := UInt8.ofNat n.digitChar.toUpper.toNat

/-- `%08X`. -/
def printHi (n : Nat) : List UInt8 :=
  [n / 268435456, n / 16777216, n / 1048576, n / 65536, n / 4096, n / 256, n / 16, n].map fun n =>
    hexDigit (n % 16)

/-- `%02X`. -/
def printHex (b : UInt8) : List UInt8 := [hexDigit (b.toNat / 16), hexDigit (b.toNat % 16)]

/-- `at_get_value`. -/
def atGetValue (pt : ParaType) (pvar vsize : Nat) (cfg : AtConfig) : List UInt8 :=
  match pt with
  | .di => printDi (diOf (cfg.load pvar 4))
  | .hi => [0x30, 0x78] ++ printHi (u32Of (cfg.load pvar 4))
  | .hex =>
    match cfg.load pvar vsize with
    | [] => []
    | b :: bs => printHex b ++ bs.flatMap fun b => atColon :: printHex b
  | .ip =>
    match cfg.load pvar vsize with
    | [] => []
    | b :: bs => printNat b.toNat ++ bs.flatMap fun b => atDot :: printNat b.toNat
  | .text => cfg.str pvar

/-- `at_set_value`. -/
def atSetValue (pt : ParaType) (pvar vsize : Nat) (value : AtValue) (cfg : AtConfig) : AtConfig :=
  match pt with
  | .text => cfg.store pvar (cString value ++ [0])
  | .hex => cfg.store pvar (value.take vsize)
  | .di => cfg.store pvar (value.take 4)
  | .hi => cfg.store pvar (value.take 4)
  | .ip => cfg.store pvar (value.take vsize)

/-! ## The table of the variables -/

/-- `AT_PARA_OPTION`. -/
inductive ParaOption
  | ro
  | rw
deriving DecidableEq, Repr

/-- `at_var_descriptor_t`. -/
structure VarDescriptor where
  key : String
  pt : ParaType
  po : ParaOption
  pvar : Nat
  vsize : Nat
  verify : Option (AtValue → Bool)

def rangeVerify (lo hi : Int) (value : AtValue) : Bool := lo ≤ diOf value ∧ diOf value ≤ hi

def localecho1Verify : AtValue → Bool := rangeVerify 0 1

def console1SpeedVerify (value : AtValue) : Bool :=
  [9600, 19200, 38400, 115200, 921600].contains (diOf value)

def console1HwfcVerify : AtValue → Bool := rangeVerify 0 1
def wifiSsidLenVerify : AtValue → Bool := rangeVerify 0 32
def wifiModeVerify : AtValue → Bool := rangeVerify 0 3
def ipUseDhcpVerify : AtValue → Bool := rangeVerify 0 2

/-- The key of a variable is the name of its field. -/
def var (key : String) (pt : ParaType) (po : ParaOption) (verify : Option (AtValue → Bool)) :
    VarDescriptor :=
  { key, pt, po, pvar := (fieldOf key).1, vsize := (fieldOf key).2, verify }

def atCfgTable : List VarDescriptor :=
  [var "nv_manuf" .text .ro none, var "nv_model" .text .ro none, var "nv_serial" .text .ro none,
   var "nv_wifi_macaddr" .hex .ro none, var "wind_off_low" .hi .rw none,
   var "wind_off_medium" .hi .rw none, var "wind_off_high" .hi .rw none,
   var "user_desc" .text .rw none, var "escape_seq" .text .rw none,
   var "localecho1" .di .rw localecho1Verify, var "console1_speed" .di .rw console1SpeedVerify,
   var "console1_hwfc" .di .rw console1HwfcVerify, var "wifi_channelnum" .di .rw none,
   var "wifi_mode" .di .rw wifiModeVerify, var "wifi_ssid" .hex .rw none,
   var "wifi_ssid_len" .di .rw wifiSsidLenVerify, var "wifi_wpa_psk_text" .text .rw none,
   var "ip_use_dhcp" .di .rw ipUseDhcpVerify, var "ip_ipaddr" .ip .rw none,
   var "ip_netmask" .ip .rw none, var "ip_gw" .ip .rw none, var "ip_dns" .ip .rw none]

/-- `AT_ERROR_CODE`, as far as these functions return it. -/
inductive ErrorCode
  | ok
  | paraError
  | noPara
  | notFound
  | outOfRange
  | readOnly
deriving DecidableEq, Repr

def atFind (key : List UInt8) : Option VarDescriptor :=
  atCfgTable.find? fun row => key = bytesOf row.key

/-- The text that `at_getcfg` prints behind the key. -/
def atGetcfg (key : List UInt8) (cfg : AtConfig) : Option (List UInt8) :=
  (atFind key).map fun row => atGetValue row.pt row.pvar row.vsize cfg

/-- `AEC_NOT_FOUND`, which is none of the types, is `none`. -/
def atTypecfg (key : List UInt8) : Option ParaType := (atFind key).map VarDescriptor.pt

def atSetcfg (key : List UInt8) (value : AtValue) (cfg : AtConfig) : ErrorCode × AtConfig :=
  match atFind key with
  | none => (.notFound, cfg)
  | some row =>
    if row.po ≠ .rw then (.readOnly, cfg)
    else if row.verify.any (· value = false) then (.outOfRange, cfg)
    else (.ok, atSetValue row.pt row.pvar row.vsize value cfg)

/-! ## The handler -/

def cmdKey : Descriptor := text 64 (aetPara ||| sizeLimit 64)

def cmdValueList : List Descriptor :=
  [text 64 (aetLine ||| sizeLimit 64), hex 64 (aetLine ||| sizeLimit 64),
   di (aetLine ||| sizeLimit 4), hi (aetLine ||| sizeLimit 4), ip (aetLine ||| sizeLimit 4)]

theorem setcfgHandler_lists : AtCmd.setcfgHandler = .setcfg [cmdKey] cmdValueList := rfl

/-- `setcfg_handler`, from the pointer at the end of the name of the command on. -/
def setcfgHandler (cfg : AtConfig) (para : List UInt8) : ErrorCode × AtConfig :=
  if para.head? ≠ some atEqu then (.noPara, cfg)
  else
    let p := atGetParameters [cmdKey] para.tail
    if p.error ∨ p.values.length ≠ 1 then (.paraError, cfg)
    else
      let key := cString (p.values.getD 0 [])
      match cmdValueList.find? fun d => some d.pt = atTypecfg key with
      | none => (.notFound, cfg)
      | some d =>
        let q := atGetParameters [d] p.para
        if q.error ∨ q.values.length ≠ 1 then (.paraError, cfg)
        else atSetcfg key (overlay AtValue.zero (written d (q.values.getD 0 []))) cfg

/-! ## Stores and loads -/

section
variable {cfg : AtConfig} {off : Nat} {bs : List UInt8}

@[ext] theorem AtConfig.ext {cfg cfg' : AtConfig} (h : cfg.bytes = cfg'.bytes) : cfg = cfg' := by
  cases cfg
  cases cfg'
  cases h
  rfl

theorem AtConfig.store_bytes (h : off + bs.length ≤ atConfigSize) :
    (cfg.store off bs).bytes = cfg.bytes.take off ++ bs ++ cfg.bytes.drop (off + bs.length) := by
  have hsize := cfg.size
  refine List.take_of_length_le ?_
  simp only [List.length_append, List.length_take, List.length_drop, hsize]
  omega

/-- What stands from `off` on after a store there. -/
theorem AtConfig.drop_store (h : off + bs.length ≤ atConfigSize) :
    (cfg.store off bs).bytes.drop off = bs ++ cfg.bytes.drop (off + bs.length) := by
  have hlen : (cfg.bytes.take off).length = off := by
    rw [List.length_take, cfg.size]
    omega
  rw [store_bytes h, List.append_assoc, List.drop_left' hlen]

theorem AtConfig.load_store (cfg : AtConfig) (h : off + bs.length ≤ atConfigSize) :
    (cfg.store off bs).load off bs.length = bs := by
  rw [load, drop_store h, List.take_left]

/-- The same store once more changes nothing. -/
theorem AtConfig.store_store (h : off + bs.length ≤ atConfigSize) :
    (cfg.store off bs).store off bs = cfg.store off bs := by
  have hlen : (cfg.bytes.take off).length = off := by
    rw [List.length_take, cfg.size]
    omega
  have htake : (cfg.store off bs).bytes.take off = cfg.bytes.take off := by
    rw [store_bytes h, List.append_assoc, List.take_left' hlen]
  have hdrop : (cfg.store off bs).bytes.drop (off + bs.length) =
      cfg.bytes.drop (off + bs.length) := by
    rw [← List.drop_drop, drop_store h, List.drop_left]
  ext1
  rw [store_bytes h, htake, hdrop, store_bytes h]

end

/-! ## What is printed -/

theorem u32Of_u32Bytes {n : Nat} (h : n < 4294967296) : u32Of (u32Bytes n) = n := by
  simp only [u32Of, u32Bytes, List.getD_cons_zero, List.getD_cons_succ, UInt8.toNat_ofNat']
  omega

theorem diOf_u32Bytes {n : Nat} (h : n < 2147483648) : diOf (u32Bytes n) = n := by
  rw [diOf, u32Of_u32Bytes (by omega), if_pos h]

theorem digitChar_isDec {n : Nat} (h : n < 10) :
    isDec (UInt8.ofNat n.digitChar.toNat) = true ∧
      (UInt8.ofNat n.digitChar.toNat - 0x30).toNat = n := by
  revert n
  decide

theorem mem_toDigits {n : Nat} {c : Char} (h : c ∈ Nat.toDigits 10 n) :
    ∃ d < 10, c = d.digitChar := by
  induction n using Nat.strongRecOn with
  | ind n ih =>
    rw [Nat.toDigits_eq_if (by decide)] at h
    split at h
    · rename_i hlt
      exact ⟨n, hlt, List.mem_singleton.mp h⟩
    · rename_i hge
      rcases List.mem_append.mp h with h | h
      · exact ih _ (by omega) h
      · exact ⟨n % 10, by omega, List.mem_singleton.mp h⟩

theorem printNat_isDec (n : Nat) : ∀ b ∈ printNat n, isDec b = true := by
  intro b hb
  obtain ⟨c, hc, rfl⟩ := List.mem_map.mp hb
  obtain ⟨d, hd, rfl⟩ := mem_toDigits hc
  exact (digitChar_isDec hd).1

theorem printNat_ne_nil (n : Nat) : printNat n ≠ [] := by
  rw [printNat, Ne, List.map_eq_nil_iff]
  exact Nat.toDigits_ne_nil

theorem printNat_length {n k : Nat} (hk : 0 < k) (h : n < 10 ^ k) : (printNat n).length ≤ k := by
  rw [printNat, List.length_map]
  exact (Nat.length_toDigits_le_iff (by decide) hk).mpr h

theorem foldl_printNat (n : Nat) :
    (printNat n).foldl (fun n ch => n * 10 + (ch - 0x30).toNat) 0 = n := by
  induction n using Nat.strongRecOn with
  | ind n ih =>
    rw [printNat, Nat.toDigits_eq_if (by decide)]
    split
    · rename_i hlt
      simpa using (digitChar_isDec hlt).2
    · rename_i hge
      have hmod : n % 10 < 10 := Nat.mod_lt _ (by decide)
      rw [List.map_append, List.foldl_append, ← printNat, ih _ (by omega)]
      have hd := (digitChar_isDec hmod).2
      simp only [List.map_cons, List.map_nil, List.foldl_cons, List.foldl_nil, hd]
      omega

theorem atAtoi_printNat {n : Nat} (h : n < 2147483648) : atAtoi (printNat n) = n := by
  rw [atAtoi, foldl_printNat]
  omega

theorem isNum_printNat (b : UInt8) : IsNum (printNat b.toNat) b := by
  have hlt : b.toNat < 256 := b.toNat_lt
  have hlen : (printNat b.toNat).length ≤ 3 := printNat_length (by decide) (by omega)
  have hpos := List.length_pos_iff.mpr (printNat_ne_nil b.toNat)
  have hval : atAtoi (printNat b.toNat) = b.toNat := atAtoi_printNat (by omega)
  refine ⟨printNat_isDec _, ?_⟩
  rw [ipNum, hval, if_pos ⟨hpos, hlen, by omega⟩, UInt8.ofNat_toNat]

theorem flatMap_intercalate (b : UInt8) (bs : List UInt8) :
    printNat b.toNat ++ (bs.flatMap fun b => atDot :: printNat b.toNat) =
      [atDot].intercalate ((b :: bs).map fun b => printNat b.toNat) := by
  induction bs generalizing b with
  | nil => simp
  | cons b' bs ih =>
    rw [List.map_cons, intercalate_cons (by simp), ← ih, List.flatMap_cons]
    rfl

theorem forall₂_printNat (bs : List UInt8) :
    List.Forall₂ IsNum (bs.map fun b => printNat b.toNat) bs := by
  induction bs with
  | nil => exact .nil
  | cons b bs ih => exact .cons (isNum_printNat b) ih

/-! ## The handler on a line -/

def valueDescriptor : ParaType → Descriptor
  | .text => text 64 (aetLine ||| sizeLimit 64)
  | .hex => hex 64 (aetLine ||| sizeLimit 64)
  | .di => di (aetLine ||| sizeLimit 4)
  | .hi => hi (aetLine ||| sizeLimit 4)
  | .ip => ip (aetLine ||| sizeLimit 4)

theorem valueDescriptor_pt (pt : ParaType) : (valueDescriptor pt).pt = pt := by
  cases pt <;> rfl

theorem find_valueDescriptor (pt : ParaType) :
    cmdValueList.find? (fun d => some d.pt = some pt) = some (valueDescriptor pt) := by
  cases pt <;> rfl

/-- The value that a variable is set to for what a getter has put into `strbuf`. -/
def valueOf (pt : ParaType) (v : List UInt8) : AtValue :=
  overlay AtValue.zero (written (valueDescriptor pt) v)

def VarDescriptor.set (row : VarDescriptor) (value : AtValue) (cfg : AtConfig) :
    ErrorCode × AtConfig :=
  if row.po ≠ .rw then (.readOnly, cfg)
  else if row.verify.any (· value = false) then (.outOfRange, cfg)
  else (.ok, atSetValue row.pt row.pvar row.vsize value cfg)

/-- What the handler does from the pointer behind the key of the variable on. -/
def VarDescriptor.parse (row : VarDescriptor) (cfg : AtConfig) (para : List UInt8) :
    ErrorCode × AtConfig :=
  let g := getPara (valueDescriptor row.pt) para
  if g.error then (.paraError, cfg) else row.set (valueOf row.pt g.value) cfg

theorem keys_nodup : (atCfgTable.map fun row => bytesOf row.key).Nodup := by
  decide

theorem atFind_key {row : VarDescriptor} (hrow : row ∈ atCfgTable) :
    atFind (bytesOf row.key) = some row := by
  have hsome : (atFind (bytesOf row.key)).isSome = true :=
    List.find?_isSome.mpr ⟨row, hrow, decide_eq_true rfl⟩
  obtain ⟨row', hfind⟩ := Option.isSome_iff_exists.mp hsome
  have hkey : bytesOf row.key = bytesOf row'.key := by
    simpa using List.find?_some hfind
  have heq := List.inj_on_of_nodup_map keys_nodup hrow (List.mem_of_find?_eq_some hfind) hkey
  rw [hfind, heq]

theorem atSetcfg_key {row : VarDescriptor} (hrow : row ∈ atCfgTable) (value : AtValue)
    (cfg : AtConfig) : atSetcfg (bytesOf row.key) value cfg = row.set value cfg := by
  rw [atSetcfg, atFind_key hrow]
  rfl

theorem atGetParameters_single (d : Descriptor) (para : List UInt8) :
    (atGetParameters [d] para).error = (getPara d para).error ∧
      (atGetParameters [d] para).para = (getPara d para).para ∧
        (atGetParameters [d] para).values =
          if (getPara d para).error then [] else [(getPara d para).value] := by
  have hne : ¬[d] = [] := List.cons_ne_nil d []
  rw [atGetParameters, if_neg hne, paraLoop]
  cases herr : (getPara d para).error <;> cases (getPara d para).overFlag <;> simp [paraLoop]

section
variable {row : VarDescriptor} {cfg : AtConfig} {para key para' : List UInt8} {overFlag : Bool}

theorem setcfgHandler_key (hrow : row ∈ atCfgTable)
    (hk : (getPara cmdKey para).Is key para' overFlag) (hc : cString key = bytesOf row.key) :
    setcfgHandler cfg (atEqu :: para) = row.parse cfg para' := by
  obtain ⟨herr, hval, hpara, -⟩ := hk
  obtain ⟨hp, hpp, hpv⟩ := atGetParameters_single cmdKey para
  rw [herr, if_neg Bool.false_ne_true, hval] at hpv
  rw [herr] at hp
  have htype : atTypecfg (bytesOf row.key) = some row.pt := by
    rw [atTypecfg, atFind_key hrow, Option.map_some]
  obtain ⟨hq, -, hqv⟩ := atGetParameters_single (valueDescriptor row.pt) para'
  have hhead : ¬(atEqu :: para).head? ≠ some atEqu := fun h => h rfl
  have hone : ¬(false = true ∨ [key].length ≠ 1) := by simp
  rw [setcfgHandler, if_neg hhead]
  simp only [List.tail_cons, hp, hpv, hpp, hpara, hone, if_false, List.getD_cons_zero, hc, htype,
    find_valueDescriptor, hq, hqv, atSetcfg_key hrow]
  rw [VarDescriptor.parse]
  cases hg : (getPara (valueDescriptor row.pt) para').error with
  | true => simp
  | false => simp [valueOf]

/-- A handler that succeeds has found a key and its end. -/
theorem key_of_setcfgHandler (h : (setcfgHandler cfg para).1 = .ok) :
    ∃ rest, para = atEqu :: rest ∧ (getPara cmdKey rest).error = false := by
  rw [setcfgHandler] at h
  split_ifs at h with hhead
  · obtain ⟨rest, rfl⟩ : ∃ rest, para = atEqu :: rest := by
      cases para with
      | nil => simp at hhead
      | cons b rest => exact ⟨rest, by simpa using hhead⟩
    refine ⟨rest, rfl, ?_⟩
    dsimp only [List.tail_cons] at h
    rw [(atGetParameters_single cmdKey rest).1] at h
    cases herr : (getPara cmdKey rest).error with
    | false => rfl
    | true => simp [herr] at h

end

/-! ## The round trip -/

/-- The ends of a line. -/
def lineEnds : List (List UInt8) := [[atCr], [atLf], [atCr, atLf]]

def VarDescriptor.value (row : VarDescriptor) (cfg : AtConfig) : List UInt8 :=
  cfg.load row.pvar row.vsize

/-- What is printed for the variable, given back as the value of its key, is accepted and leaves it
as it is. -/
def RoundTrips (row : VarDescriptor) (cfg : AtConfig) : Prop :=
  ∀ e ∈ lineEnds, ∀ behind : List UInt8,
    let printed := atGetValue row.pt row.pvar row.vsize cfg
    let r := setcfgHandler cfg
      (atEqu :: (bytesOf row.key ++ atSeparator :: (printed ++ e ++ behind)))
    r.1 = .ok ∧ row.value r.2 = row.value cfg

/-- The key of the line at the pointer. -/
def keyAt (para : List UInt8) : List UInt8 := cString (textOf para.tail)

/-- The text of the value, without quotes. -/
def valueAt (para : List UInt8) : List UInt8 := textOf (endOf para.tail).tail

/-- The variable has room for what its type stores. -/
def VarDescriptor.Fits (row : VarDescriptor) : Prop :=
  match row.pt with
  | .text => row.pvar + 64 ≤ atConfigSize
  | .hex => 2 ≤ row.vsize ∧ row.pvar + row.vsize ≤ atConfigSize
  | .di | .hi | .ip => row.vsize = 4 ∧ row.pvar + 4 ≤ atConfigSize

instance (row : VarDescriptor) : Decidable row.Fits := by
  unfold VarDescriptor.Fits
  cases row.pt <;> infer_instance

theorem atCfgTable_fits : ∀ row ∈ atCfgTable, row.Fits := by
  decide

theorem atCfgTable_key_bytes : ∀ row ∈ atCfgTable,
    (bytesOf row.key).all (fun b => !isEnd b && b != atQuo) = true := by
  decide

theorem atCfgTable_key_text : ∀ row ∈ atCfgTable, bytesOf row.key ≠ [] ∧
    (bytesOf row.key).length < 64 ∧ cString (bytesOf row.key) = bytesOf row.key := by
  decide

/-- A key is read back as it is. -/
theorem atCfgTable_keys : ∀ row ∈ atCfgTable, bytesOf row.key ≠ [] ∧
    (bytesOf row.key).length < 64 ∧ cString (bytesOf row.key) = bytesOf row.key ∧
      ∀ b ∈ bytesOf row.key, isEnd b = false ∧ b ≠ atQuo := by
  intro row hrow
  obtain ⟨hne, hlen, hstr⟩ := atCfgTable_key_text row hrow
  refine ⟨hne, hlen, hstr, fun b hb => ?_⟩
  simpa using List.all_eq_true.mp (atCfgTable_key_bytes row hrow) b hb

section
variable {row : VarDescriptor} {cfg : AtConfig} {para : List UInt8}

theorem unquoted_of_ne {text : List UInt8} (h : ∀ b ∈ text, b ≠ atQuo) : unquoted text = text :=
  List.filter_eq_self.mpr fun b hb => by simpa using h b hb

theorem getPara_key (hrow : row ∈ atCfgTable) (para : List UInt8) :
    (getPara cmdKey (bytesOf row.key ++ atSeparator :: para)).Is (bytesOf row.key) para false := by
  obtain ⟨hne, hlen, -, hb⟩ := atCfgTable_keys row hrow
  refine getPara_is_iff.mpr ⟨_, atSeparator, para, rfl, fun x hx => ?_, rfl, ?_, ?_, rfl, rfl⟩
  · simp [stops, (hb x hx).1, cmdKey, text]
  · change aetPara &&& cmdKey.option ≠ 0
    decide
  · exact ⟨(unquoted_of_ne fun b h => (hb b h).2).symm, hne, hlen⟩

theorem setcfgHandler_line (hrow : row ∈ atCfgTable) (para : List UInt8) :
    setcfgHandler cfg (atEqu :: (bytesOf row.key ++ atSeparator :: para)) = row.parse cfg para :=
  setcfgHandler_key hrow (getPara_key hrow para) (atCfgTable_keys row hrow).2.2.1

theorem separator_of_cmdKey {b : UInt8} {rest : List UInt8}
    (h : (stopAt b rest).endType &&& cmdKey.option ≠ 0) : b = atSeparator := by
  by_contra hb
  have hline : aetLine &&& cmdKey.option = 0 := by decide
  rw [stopAt, if_neg hb] at h
  split_ifs at h <;> exact h hline

/-- A line that has set the variable. -/
theorem parse_of_setcfgHandler (hrow : row ∈ atCfgTable)
    (h : (setcfgHandler cfg para).1 = .ok) (hkey : keyAt para = bytesOf row.key) :
    setcfgHandler cfg para = row.parse cfg (endOf para.tail).tail := by
  obtain ⟨rest, rfl, herr⟩ := key_of_setcfgHandler h
  obtain ⟨text, b, rest', rfl, htext, hb, he, htake, hp, -⟩ := getPara_is_iff.mp (is_of_ok herr)
  have hends : ∀ x ∈ text, isEnd x = false := fun x hx => by
    simpa [stops, cmdKey, AtCmd.text] using htext x hx
  have hend : isEnd b = true := by simpa [stops, cmdKey, AtCmd.text] using hb
  obtain rfl := separator_of_cmdKey he
  rw [keyAt, List.tail_cons, textOf_field hends hend] at hkey
  have hc : cString (getPara cmdKey (text ++ atSeparator :: rest')).value = bytesOf row.key := by
    rw [htake.1, hkey]
  rw [List.tail_cons, endOf_field hends hend, List.tail_cons]
  exact setcfgHandler_key hrow ⟨herr, rfl, hp.symm, rfl⟩ hc

/-- The variable is set to what the getter has taken. -/
def VarDescriptor.stored (row : VarDescriptor) (v : List UInt8) (cfg : AtConfig) : AtConfig :=
  atSetValue row.pt row.pvar row.vsize (valueOf row.pt v) cfg

theorem set_ok {value : AtValue} (h : (row.set value cfg).1 = .ok) :
    row.po = .rw ∧ row.verify.any (· value = false) = false ∧
      row.set value cfg = (.ok, atSetValue row.pt row.pvar row.vsize value cfg) := by
  unfold VarDescriptor.set at h ⊢
  split_ifs at h ⊢ with hpo hver
  exact ⟨not_not.mp hpo, by simpa using hver, rfl⟩

theorem set_of {value : AtValue} (hpo : row.po = .rw)
    (hver : row.verify.any (· value = false) = false) (cfg : AtConfig) :
    row.set value cfg = (.ok, atSetValue row.pt row.pvar row.vsize value cfg) := by
  rw [VarDescriptor.set, if_neg (not_not.mpr hpo), hver, if_neg Bool.false_ne_true]

/-- What the variable is set to once its line is accepted. -/
theorem parse_ok (h : (row.parse cfg para).1 = .ok) : ∃ v para' overFlag,
    Field (valueDescriptor row.pt) para v para' overFlag ∧ row.po = .rw ∧
      row.verify.any (· (valueOf row.pt v) = false) = false ∧
        (row.parse cfg para).2 = row.stored v cfg := by
  unfold VarDescriptor.parse at h ⊢
  dsimp only at h ⊢
  split_ifs at h ⊢ with herr
  rw [Bool.not_eq_true] at herr
  obtain ⟨hpo, hver, heq⟩ := set_ok h
  exact ⟨_, _, _, getPara_is_iff.mp (is_of_ok herr), hpo, hver, by rw [heq]; rfl⟩

theorem lineEnds_cases {e : List UInt8} (he : e ∈ lineEnds) :
    ∃ b e', e = b :: e' ∧ isEnd b = true ∧ ∀ rest, (stopAt b rest).endType = aetLine := by
  simp only [lineEnds, List.mem_cons, List.not_mem_nil, or_false] at he
  rcases he with rfl | rfl | rfl
  · exact ⟨_, _, rfl, rfl, fun _ => rfl⟩
  · exact ⟨_, _, rfl, rfl, fun _ => rfl⟩
  · exact ⟨_, _, rfl, rfl, fun _ => rfl⟩

theorem valueDescriptor_line (pt : ParaType) : aetLine &&& (valueDescriptor pt).option ≠ 0 := by
  cases pt <;> decide

/-- A printed text that its getter takes, with a value that sets the variable to what it is. -/
theorem roundTrips_of_takes (hrow : row ∈ atCfgTable) (hx : row.pt ≠ .hex) {v : List UInt8}
    (hstops : ∀ b ∈ atGetValue row.pt row.pvar row.vsize cfg, stops row.pt b = false)
    (htakes : Takes (valueDescriptor row.pt) (atGetValue row.pt row.pvar row.vsize cfg) v)
    (hset : row.set (valueOf row.pt v) cfg = (.ok, cfg)) : RoundTrips row cfg := by
  intro e he behind
  obtain ⟨b, e', rfl, hb, hline⟩ := lineEnds_cases he
  dsimp only
  generalize hprint : atGetValue row.pt row.pvar row.vsize cfg = printed at hstops htakes
  have hsplit : printed ++ b :: e' ++ behind = printed ++ b :: (e' ++ behind) := by simp
  have hfield : Field (valueDescriptor row.pt) (printed ++ b :: (e' ++ behind)) v
      (stopAt b (e' ++ behind)).para (stopAt b (e' ++ behind)).overFlag := by
    refine ⟨printed, b, e' ++ behind, rfl, ?_, ?_, ?_, htakes, ?_, ?_⟩
    · rw [valueDescriptor_pt]
      exact hstops
    · simp [stops, hb]
    · rw [valueDescriptor_pt, leaves, if_neg hx, hline]
      exact valueDescriptor_line row.pt
    · rw [valueDescriptor_pt, leaves, if_neg hx]
    · rw [valueDescriptor_pt, leaves, if_neg hx]
  obtain ⟨herr, hval, -, -⟩ := getPara_is_iff.mpr hfield
  have hparse : row.parse cfg (printed ++ b :: e' ++ behind) = (.ok, cfg) := by
    rw [VarDescriptor.parse, hsplit, herr, if_neg Bool.false_ne_true, hval, hset]
  rw [setcfgHandler_line hrow, hparse]
  exact ⟨rfl, rfl⟩

/-- The getter of a variable that makes the round trip takes what is printed before a `<CR>`. -/
theorem field_of_roundTrips (hrow : row ∈ atCfgTable) (h : RoundTrips row cfg) :
    ∃ v para' overFlag, Field (valueDescriptor row.pt)
      (atGetValue row.pt row.pvar row.vsize cfg ++ [atCr]) v para' overFlag := by
  obtain ⟨hok, -⟩ := h [atCr] List.mem_cons_self []
  rw [setcfgHandler_line hrow, List.append_nil] at hok
  obtain ⟨v, para', overFlag, hfield, -⟩ := parse_ok hok
  exact ⟨v, para', overFlag, hfield⟩

/-! ### Integers and addresses -/

theorem valueOf_four (pt : ParaType) {v : List UInt8}
    (h : (written (valueDescriptor pt) v).length = 4) :
    (valueOf pt v).take 4 = written (valueDescriptor pt) v := by
  rw [valueOf, overlay, List.take_left' h]

/-- The variables of four bytes that are printed as their getters take them. -/
def VarDescriptor.Four (row : VarDescriptor) : Prop := row.pt = .di ∨ row.pt = .ip

theorem four_fits (hrow : row ∈ atCfgTable) (h4 : row.Four) :
    row.vsize = 4 ∧ row.pvar + 4 ≤ atConfigSize := by
  have hfits := atCfgTable_fits row hrow
  rcases h4 with h | h <;> simpa [VarDescriptor.Fits, h] using hfits

theorem stored_four (hrow : row ∈ atCfgTable) (h4 : row.Four) {v : List UInt8}
    (hlen : (written (valueDescriptor row.pt) v).length = 4) (cfg : AtConfig) :
    row.stored v cfg = cfg.store row.pvar (written (valueDescriptor row.pt) v) := by
  have hsize := (four_fits hrow h4).1
  have htake := valueOf_four row.pt hlen
  rcases h4 with h | h
  · rw [VarDescriptor.stored, h, atSetValue]
    rw [h] at htake
    exact congrArg (cfg.store row.pvar) htake
  · rw [VarDescriptor.stored, h, atSetValue, hsize]
    rw [h] at htake
    exact congrArg (cfg.store row.pvar) htake

/-- The four bytes are read back, and the same value sets them to what they are. -/
theorem four_stored (hrow : row ∈ atCfgTable) (h4 : row.Four) {v : List UInt8}
    (hlen : (written (valueDescriptor row.pt) v).length = 4) (cfg : AtConfig) :
    (row.stored v cfg).load row.pvar 4 = written (valueDescriptor row.pt) v ∧
      row.stored v (row.stored v cfg) = row.stored v cfg := by
  have hfit : row.pvar + (written (valueDescriptor row.pt) v).length ≤ atConfigSize := by
    rw [hlen]
    exact (four_fits hrow h4).2
  rw [stored_four hrow h4 hlen (row.stored v cfg), stored_four hrow h4 hlen cfg]
  refine ⟨?_, AtConfig.store_store hfit⟩
  have hload := AtConfig.load_store cfg hfit
  rwa [hlen] at hload

theorem roundTrips_di (hrow : row ∈ atCfgTable) (hpt : row.pt = .di) (hpo : row.po = .rw)
    {v : List UInt8} (hver : row.verify.any (· (valueOf row.pt v) = false) = false) :
    RoundTrips row (row.stored v cfg) := by
  have h4 : row.Four := .inl hpt
  have hwritten : written (valueDescriptor row.pt) v = u32Bytes (atAtoi v) := by
    rw [hpt]
    rfl
  have hlt : atAtoi v < 2147483648 := by
    rw [atAtoi]
    omega
  obtain ⟨hload, hagain⟩ := four_stored hrow h4 (by rw [hwritten]; rfl) cfg
  have hprint : atGetValue row.pt row.pvar row.vsize (row.stored v cfg) = printNat (atAtoi v) := by
    rw [hpt, atGetValue, hload, hwritten, diOf_u32Bytes hlt, printDi, if_neg (by omega), Int.toNat_natCast]
  have hvalue : valueOf row.pt (printNat (atAtoi v)) = valueOf row.pt v := by
    rw [hpt]
    change overlay _ (u32Bytes (atAtoi (printNat (atAtoi v)))) = overlay _ (u32Bytes (atAtoi v))
    rw [atAtoi_printNat hlt]
  refine roundTrips_of_takes hrow (by rw [hpt]; exact ParaType.noConfusion)
    (v := printNat (atAtoi v)) ?_ ?_ ?_
  · rw [hprint, hpt]
    intro b hb
    obtain ⟨he, hc⟩ := not_isEnd_of_isDec (printNat_isDec _ b hb)
    simp [stops, he, hc]
  · rw [hprint, hpt]
    have hlen : (printNat (atAtoi v)).length ≤ 10 := printNat_length (by decide) (by omega)
    exact ⟨rfl, printNat_ne_nil _, Nat.lt_succ_of_le hlen, printNat_isDec _⟩
  · rw [hvalue, set_of hpo hver]
    exact congrArg _ hagain

theorem mem_intercalate {texts : List (List UInt8)} {b : UInt8}
    (hb : b ∈ [atDot].intercalate texts) : b = atDot ∨ ∃ text ∈ texts, b ∈ text := by
  induction texts with
  | nil => simp at hb
  | cons text texts ih =>
    cases texts with
    | nil => exact .inr ⟨text, List.mem_cons_self, by simpa using hb⟩
    | cons text' texts =>
      rw [intercalate_cons (List.cons_ne_nil _ _), List.mem_append, List.mem_cons] at hb
      rcases hb with hb | rfl | hb
      · exact .inr ⟨text, List.mem_cons_self, hb⟩
      · exact .inl rfl
      · rcases ih hb with h | ⟨t, ht, hbt⟩
        · exact .inl h
        · exact .inr ⟨t, List.mem_cons_of_mem _ ht, hbt⟩

theorem roundTrips_ip (hrow : row ∈ atCfgTable) (hpt : row.pt = .ip) (hpo : row.po = .rw)
    {v : List UInt8} (hv : v.length = 4)
    (hver : row.verify.any (· (valueOf row.pt v) = false) = false) :
    RoundTrips row (row.stored v cfg) := by
  have h4 : row.Four := .inr hpt
  have hwritten : written (valueDescriptor row.pt) v = v := by
    rw [hpt]
    rfl
  obtain ⟨hload, hagain⟩ := four_stored hrow h4 (by rw [hwritten, hv]) cfg
  have hne : v ≠ [] := List.length_pos_iff.mp (by omega)
  have hprint : atGetValue row.pt row.pvar row.vsize (row.stored v cfg) =
      [atDot].intercalate (v.map fun b => printNat b.toNat) := by
    rw [hpt, atGetValue, (four_fits hrow h4).1, hload, hwritten]
    obtain ⟨b, bs, rfl⟩ := List.exists_cons_of_ne_nil hne
    exact flatMap_intercalate b bs
  have hchars : ∀ b ∈ [atDot].intercalate (v.map fun b => printNat b.toNat),
      b = atDot ∨ isDec b = true := by
    intro b hb
    rcases mem_intercalate hb with h | ⟨text, htext, hbt⟩
    · exact .inl h
    · obtain ⟨n, -, rfl⟩ := List.mem_map.mp htext
      exact .inr (printNat_isDec _ b hbt)
  refine roundTrips_of_takes hrow (by rw [hpt]; exact ParaType.noConfusion) (v := v) ?_ ?_ ?_
  · rw [hprint, hpt]
    intro b hb
    rcases hchars b hb with rfl | hd
    · rfl
    · obtain ⟨he, hc⟩ := not_isEnd_of_isDec hd
      simp [stops, he]
  · rw [hprint, hpt]
    refine ⟨hv, _, unquoted_of_ne fun b hb => ?_, forall₂_printNat v⟩
    rcases hchars b hb with rfl | hd
    · decide
    · exact (ne_of_isDec hd).1
  · rw [set_of hpo hver]
    exact congrArg _ hagain

/-! ### Texts -/

theorem cString_append {u w : List UInt8} (hw : cString w = w) : cString (w ++ 0 :: u) = w := by
  have hne : ∀ b ∈ w, (b ≠ 0 : Bool) = true := fun b hb => by
    rw [← hw] at hb
    exact List.mem_takeWhile_imp (p := fun b => decide (b ≠ 0)) hb
  rw [cString, List.takeWhile_append_of_pos hne]
  simp

@[simp] theorem cString_cString (v : List UInt8) : cString (cString v) = cString v :=
  List.takeWhile_idem

theorem cString_terminated (v u : List UInt8) : cString (v ++ 0 :: u) = cString v := by
  induction v with
  | nil => simp [cString]
  | cons b v ih =>
    by_cases hb : b = 0
    · simp [cString, hb]
    · simp only [cString, List.cons_append] at ih ⊢
      rw [List.takeWhile_cons_of_pos (by simpa using hb),
        List.takeWhile_cons_of_pos (by simpa using hb), ih]

theorem mem_cString {v : List UInt8} {b : UInt8} (hb : b ∈ cString v) : b ∈ v :=
  (List.takeWhile_sublist _).mem hb

theorem length_cString_le (v : List UInt8) : (cString v).length ≤ v.length :=
  (List.takeWhile_sublist _).length_le

theorem cString_eq_nil_iff {v : List UInt8} (hv : v ≠ []) : cString v = [] ↔ v.head? = some 0 := by
  obtain ⟨b, v, rfl⟩ := List.exists_cons_of_ne_nil hv
  by_cases hb : b = 0
  · simp [cString, hb]
  · simp [cString, hb]

theorem cString_valueOf (v : List UInt8) : cString (valueOf .text v) = cString v := by
  have hval : valueOf .text v = v ++ 0 :: AtValue.zero.drop (v ++ [0]).length := by
    change v ++ [0] ++ _ = _
    rw [List.append_assoc]
    rfl
  rw [hval, cString_terminated]

theorem stored_text (hpt : row.pt = .text) (v : List UInt8) (cfg : AtConfig) :
    row.stored v cfg = cfg.store row.pvar (cString v ++ [0]) := by
  rw [VarDescriptor.stored, hpt, atSetValue, cString_valueOf]

theorem print_text (hrow : row ∈ atCfgTable) (hpt : row.pt = .text) {v : List UInt8}
    (hv : v.length < 64) (cfg : AtConfig) :
    atGetValue row.pt row.pvar row.vsize (row.stored v cfg) = cString v ∧
      row.stored (cString v) (row.stored v cfg) = row.stored v cfg := by
  have hlen := length_cString_le v
  have hfit : row.pvar + (cString v ++ [0]).length ≤ atConfigSize := by
    have hroom : row.pvar + 64 ≤ atConfigSize := by
      simpa [VarDescriptor.Fits, hpt] using atCfgTable_fits row hrow
    rw [List.length_append, List.length_singleton]
    omega
  constructor
  · rw [stored_text hpt, hpt, atGetValue, AtConfig.str, AtConfig.drop_store hfit, List.append_assoc]
    exact cString_append (cString_cString v)
  · rw [stored_text hpt, stored_text hpt, cString_cString, AtConfig.store_store hfit]

/-- The variables with a check are integers. -/
theorem atCfgTable_verify : ∀ row ∈ atCfgTable, row.pt = .text → row.verify.isNone = true := by
  decide

theorem roundTrips_text_iff (hrow : row ∈ atCfgTable) (hpt : row.pt = .text) (hpo : row.po = .rw)
    {text v : List UInt8} (hstops : ∀ b ∈ text, isEnd b = false)
    (htakes : Takes (valueDescriptor row.pt) text v) :
    RoundTrips row (row.stored v cfg) ↔ v.head? ≠ some 0 := by
  rw [hpt] at htakes
  obtain ⟨hv, hne, hlt⟩ := htakes
  have hlen : v.length < 64 := hlt
  obtain ⟨hprint, hagain⟩ := print_text hrow hpt hlen cfg
  rw [Ne, ← cString_eq_nil_iff hne]
  constructor
  · intro hround hnil
    obtain ⟨v', para', overFlag, text', b, rest, hsplit, htext', -, -, htakes', -⟩ :=
      field_of_roundTrips hrow hround
    rw [hprint, hnil, List.nil_append] at hsplit
    cases text' with
    | nil =>
      rw [hpt] at htakes'
      exact htakes'.2.1 htakes'.1
    | cons x text' =>
      obtain ⟨rfl, -⟩ := List.cons_eq_cons.mp hsplit
      exact Bool.false_ne_true
        ((htext' atCr List.mem_cons_self).symm.trans (by simp [stops, isEnd]))
  · intro hw
    refine roundTrips_of_takes hrow (by rw [hpt]; exact ParaType.noConfusion) (v := cString v)
      ?_ ?_ ?_
    · rw [hprint, hpt]
      intro b hb
      have hmem := mem_cString hb
      rw [hv] at hmem
      simpa [stops] using hstops b (List.mem_of_mem_filter hmem)
    · rw [hprint, hpt]
      refine ⟨(unquoted_of_ne fun b hb => ?_).symm, hw, ?_⟩
      · have hmem := mem_cString hb
        rw [hv] at hmem
        exact unquoted_ne_quo text b hmem
      · exact Nat.lt_of_le_of_lt (length_cString_le v) hlen
    · have hnone := atCfgTable_verify row hrow hpt
      rw [Option.isNone_iff_eq_none] at hnone
      rw [set_of hpo (by rw [hnone]; rfl)]
      exact congrArg _ hagain

/-! ### Hexadecimal -/

theorem hexDigit_isHex {n : Nat} (h : n < 16) :
    isHex (hexDigit n) = true ∧ stops .hex (hexDigit n) = false := by
  revert n
  decide

/-- The first colon ends the value, and not as the end of a line. -/
theorem not_roundTrips_hex (hrow : row ∈ atCfgTable) (hpt : row.pt = .hex) :
    ¬RoundTrips row cfg := by
  intro h
  obtain ⟨hsize, hfit⟩ : 2 ≤ row.vsize ∧ row.pvar + row.vsize ≤ atConfigSize := by
    simpa [VarDescriptor.Fits, hpt] using atCfgTable_fits row hrow
  have hlen : (cfg.load row.pvar row.vsize).length = row.vsize := by
    rw [AtConfig.load, List.length_take, List.length_drop, cfg.size]
    omega
  obtain ⟨v, para', overFlag, hfield⟩ := field_of_roundTrips hrow h
  rw [hpt, atGetValue] at hfield
  match hload : cfg.load row.pvar row.vsize with
  | [] | [_] =>
    rw [hload] at hlen
    simp only [List.length_cons, List.length_nil] at hlen
    omega
  | b :: b' :: bs =>
    rw [hload] at hfield
    have hb : b.toNat < 256 := b.toNat_lt
    have h0 := (hexDigit_isHex (show b.toNat / 16 < 16 by omega)).2
    have h1 := (hexDigit_isHex (show b.toNat % 16 < 16 by omega)).2
    obtain ⟨text, x, rest, hsplit, htext, hx, he, -⟩ := hfield
    simp only [printHex, List.flatMap_cons, List.cons_append, List.nil_append] at hsplit
    have hcolon : stops .hex atColon = true := by decide
    cases text with
    | nil =>
      obtain ⟨rfl, -⟩ := List.cons_eq_cons.mp hsplit
      exact Bool.false_ne_true (h0.symm.trans hx)
    | cons c text =>
      obtain ⟨-, hsplit⟩ := List.cons_eq_cons.mp hsplit
      cases text with
      | nil =>
        obtain ⟨rfl, -⟩ := List.cons_eq_cons.mp hsplit
        exact Bool.false_ne_true (h1.symm.trans hx)
      | cons c' text =>
        obtain ⟨-, hsplit⟩ := List.cons_eq_cons.mp hsplit
        cases text with
        | nil =>
          obtain ⟨rfl, -⟩ := List.cons_eq_cons.mp hsplit
          have hpara : aetPara &&& (valueDescriptor .hex).option = 0 := by decide
          exact he hpara
        | cons c'' text =>
          obtain ⟨rfl, -⟩ := List.cons_eq_cons.mp hsplit
          exact Bool.false_ne_true ((htext atColon (by simp)).symm.trans hcolon)

/-- The `x` of the prefix is no digit. -/
theorem not_roundTrips_hi (hrow : row ∈ atCfgTable) (hpt : row.pt = .hi) :
    ¬RoundTrips row cfg := by
  intro h
  obtain ⟨v, para', overFlag, hfield⟩ := field_of_roundTrips hrow h
  rw [hpt, atGetValue] at hfield
  obtain ⟨text, b, rest, hsplit, -, hb, -, ⟨hv, -, -, hhex⟩, -⟩ := hfield
  have h0 : stops .hi 0x30 = false := by decide
  have hx : stops .hi 0x78 = false := by decide
  simp only [List.cons_append, List.nil_append] at hsplit
  cases text with
  | nil =>
    obtain ⟨rfl, -⟩ := List.cons_eq_cons.mp hsplit
    exact Bool.false_ne_true (h0.symm.trans hb)
  | cons c text =>
    obtain ⟨-, hsplit⟩ := List.cons_eq_cons.mp hsplit
    cases text with
    | nil =>
      obtain ⟨rfl, -⟩ := List.cons_eq_cons.mp hsplit
      exact Bool.false_ne_true (hx.symm.trans hb)
    | cons c' text =>
      obtain ⟨rfl, -⟩ := List.cons_eq_cons.mp hsplit
      have hmem : (0x78 : UInt8) ∈ v := by
        rw [hv]
        exact List.mem_filter.mpr ⟨by simp, by decide⟩
      exact absurd (hhex _ hmem) (by decide)

/-! ### Every variable -/

/-- A variable that a line has set makes the round trip exactly when it is a decimal integer, an
address, or a text that does not begin with a zero byte. -/
theorem config_round_trip_iff (hrow : row ∈ atCfgTable)
    (hok : (setcfgHandler cfg para).1 = .ok) (hkey : keyAt para = bytesOf row.key) :
    RoundTrips row (setcfgHandler cfg para).2 ↔
      row.pt = .di ∨ row.pt = .ip ∨ row.pt = .text ∧ (valueAt para).head? ≠ some 0 := by
  have heq := parse_of_setcfgHandler hrow hok hkey
  rw [heq] at hok ⊢
  obtain ⟨v, para', overFlag, hfield, hpo, hver, hstored⟩ := parse_ok hok
  rw [hstored]
  cases hpt : row.pt with
  | text =>
    rw [hpt] at hfield
    obtain ⟨text, b, rest, hpara, htext, hb, -, htakes, -⟩ := hfield
    have hends : ∀ x ∈ text, isEnd x = false := fun x hx => by
      simpa [stops, valueDescriptor, AtCmd.text] using htext x hx
    have hend : isEnd b = true := by simpa [stops, valueDescriptor, AtCmd.text] using hb
    have hvalue : valueAt para = v := by
      rw [valueAt, hpara, textOf_field hends hend, htakes.1]
    rw [hvalue, roundTrips_text_iff hrow hpt hpo hends (by rw [hpt]; exact htakes)]
    simp
  | hex => simpa using not_roundTrips_hex hrow hpt
  | di => simpa using roundTrips_di hrow hpt hpo hver
  | hi => simpa using not_roundTrips_hi hrow hpt
  | ip =>
    rw [hpt] at hfield
    obtain ⟨text, b, rest, -, -, -, -, htakes, -⟩ := hfield
    simpa using roundTrips_ip hrow hpt hpo htakes.1 hver

end

def blankConfig : AtConfig where
  bytes := List.replicate atConfigSize 0
  size := List.length_replicate

theorem config_round_trip_gateway :
    let para := bytesOf "=ip_gw,192.168.0.1" ++ [atCr]
    RoundTrips (var "ip_gw" .ip .rw none) (setcfgHandler blankConfig para).2 :=
  (config_round_trip_iff (by simp [atCfgTable]) (by decide) (by decide)).mpr
    (.inr (.inl rfl))

/-- An integer that is set in hexadecimal is printed as it cannot be set. -/
theorem hex_integer_not_taken_back :
    ¬∀ row ∈ atCfgTable, ∀ (cfg : AtConfig) (para : List UInt8),
      (setcfgHandler cfg para).1 = .ok → keyAt para = bytesOf row.key →
        RoundTrips row (setcfgHandler cfg para).2 := by
  intro h
  have hround := h (var "wind_off_low" .hi .rw none) (by simp [atCfgTable]) blankConfig
    (bytesOf "=wind_off_low,1F" ++ [atCr]) (by decide) (by decide)
  have hrefused := (hround [atCr] (by decide) []).1
  exact absurd hrefused (by decide)

end Config
end AtCmd
end XR806
