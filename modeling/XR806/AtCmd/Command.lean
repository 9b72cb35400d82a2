import XR806.AtCmd.Parameter

/-!
# XR806.AtCmd.Command

The AT commands: what each handler has its line parsed with, and the table that the name of a
command is looked up in.
-/

namespace XR806
namespace AtCmd

def atCmdMaxSize : Nat := 32

/-- What a handler has `at_get_parameters` do: nothing, only look for the end of the line, parse a
table behind the `=`, or parse a second table after the first. -/
inductive Handler
  | silent
  | newline
  | table (list : List Descriptor)
  | tableOrNewline (list : List Descriptor)
  | setcfg (key values : List Descriptor)
  | createTcpUdp (type tcp udp : List Descriptor)
deriving DecidableEq, Repr

def text (size option : Nat) : Descriptor := { pt := .text, size, option }
def hex (size option : Nat) : Descriptor := { pt := .hex, size, option }
def di (option : Nat) : Descriptor := { pt := .di, size := 4, option }
def hi (option : Nat) : Descriptor := { pt := .hi, size := 4, option }
def ip (option : Nat) : Descriptor := { pt := .ip, size := 4, option }

/-- `AET_PARA | AET_LINE`. -/
def aetBoth : Nat := aetPara ||| aetLine

/-! ## The handlers -/

def attentionHandler : Handler := .newline
def actHandler : Handler := .newline
def resetHandler : Handler := .newline
def helpHandler : Handler := .newline
def getcfgHandler : Handler := .table [text 64 (aetLine ||| sizeLimit 64)]

/-- The value is parsed as the type of its key says. -/
def setcfgHandler : Handler :=
  .setcfg [text 64 (aetPara ||| sizeLimit 64)]
    [text 64 (aetLine ||| sizeLimit 64), hex 64 (aetLine ||| sizeLimit 64),
     di (aetLine ||| sizeLimit 4), hi (aetLine ||| sizeLimit 4), ip (aetLine ||| sizeLimit 4)]

def ssidtxtHandler : Handler := .table [text 64 (aetLine ||| sizeLimit 64)]
def configHandler : Handler := .newline
def factoryHandler : Handler := .newline
def saveHandler : Handler := .newline
def statusHandler : Handler := .tableOrNewline [text 64 (aetLine ||| sizeLimit 64)]
def pingHandler : Handler := .table [text 64 (aetLine ||| sizeLimit 64)]

def sockonHandler : Handler :=
  .table [text 64 (aetPara ||| sizeLimit 64), di (aetPara ||| sizeLimit 4),
          text 2 (aetBoth ||| sizeLimit 2), text 4 (aetLine ||| sizeLimit 4)]

def sockwHandler : Handler :=
  .table [text 64 (aetPara ||| sizeLimit 64), di (aetLine ||| sizeLimit 4)]

def sockqHandler : Handler := .table [text 64 (aetLine ||| sizeLimit 64)]

def sockrHandler : Handler :=
  .table [text 64 (aetPara ||| sizeLimit 64), di (aetLine ||| sizeLimit 4)]

def sockcHandler : Handler := .table [text 64 (aetLine ||| sizeLimit 64)]

def sockdHandler : Handler :=
  .table [di (aetBoth ||| sizeLimit 4), text 2 (aetLine ||| sizeLimit 2)]

def modeHandler : Handler := .newline
def wifiHandler : Handler := .table [di (aetLine ||| sizeLimit 4)]
def reassociateHandler : Handler := .newline

def scanHandler : Handler :=
  .tableOrNewline [text 2 (aetPara ||| sizeLimit 2), text 2 (aetLine ||| sizeLimit 2)]

def echoOnHandler : Handler := .silent
def echoOffHandler : Handler := .silent
def etfEnterHandler : Handler := .silent
def versionHandler : Handler := .silent
def restoreHandler : Handler := .silent

def uartConfigHandler : Handler := .table (List.replicate 6 (di (aetBoth ||| sizeLimit 4)))

def uartConfigSaveHandler : Handler := .silent

/-- It has a parser of its own, `at_get_ssid_psk`. -/
def joinApHandler : Handler := .silent

def cwlapOptScanHandler : Handler := .silent
def cwlapScanHandler : Handler := .table [text 32 (aetBoth ||| sizeLimit 32)]
def disconnectHandler : Handler := .silent
def setautoconnectHandler : Handler := .table [di (aetBoth ||| sizeLimit 4)]
def setDhcpHandler : Handler := .table (List.replicate 2 (di (aetBoth ||| sizeLimit 8)))
def setMacHandler : Handler := .table (List.replicate 6 (hex 1 (aetBoth ||| sizeLimit 1)))
def setIpHandler : Handler := .table (List.replicate 3 (ip (aetBoth ||| sizeLimit 4)))
def setApModeHandler : Handler := .silent

def dhcpdStartHandler : Handler :=
  .table [di (aetBoth ||| sizeLimit 16), di (aetBoth ||| sizeLimit 16),
          ip (aetBoth ||| sizeLimit 16), ip (aetBoth ||| sizeLimit 16)]

/-- The limit of every field is the size of the whole structure. -/
def createTcpUdpHandler : Handler :=
  .createTcpUdp [di (aetBoth ||| sizeLimit 84), text 4 (aetBoth ||| sizeLimit 84)]
    [text 64 (aetBoth ||| sizeLimit 84), di (aetBoth ||| sizeLimit 84),
     di (aetBoth ||| sizeLimit 84)]
    [text 64 (aetBoth ||| sizeLimit 84), di (aetBoth ||| sizeLimit 84),
     di (aetBoth ||| sizeLimit 84)]

def closeNetworkHandler : Handler := .table [di (aetBoth ||| sizeLimit 4)]
def sendDataHandler : Handler := .table (List.replicate 2 (di (aetBoth ||| sizeLimit 12)))
def networkStatusHandler : Handler := .silent
def apServerHandler : Handler := .table (List.replicate 2 (di (aetBoth ||| sizeLimit 4)))
def apServerTimeoutHandler : Handler := .silent
def apServerConnHandler : Handler := .table [di (aetPara ||| sizeLimit 4)]
def apServerReceiveHandler : Handler := .silent
def apServerReceivedataHandler : Handler := .silent
def apServerReceivelenHandler : Handler := .silent
def dispApinfoHandler : Handler := .silent
def dispIpinfoHandler : Handler := .silent

/-- The limit is that of the whole structure, of which the mask leaves 16. -/
def setApcfgHandler : Handler :=
  .table [text 64 (aetBoth ||| sizeLimit 144), text 64 (aetBoth ||| sizeLimit 144),
          di (aetBoth ||| sizeLimit 144), di (aetBoth ||| sizeLimit 144),
          di (aetBoth ||| sizeLimit 144), di (aetBoth ||| sizeLimit 144)]

def powersaveHandler : Handler := .table [di (aetBoth ||| sizeLimit 4)]
def sleepHandler : Handler := .table [di (aetBoth ||| sizeLimit 4)]
def wakeupgpioHandler : Handler := .table (List.replicate 2 (di (aetBoth ||| sizeLimit 4)))
def wifiModeHandler : Handler := .table [di (aetBoth ||| sizeLimit 4)]
def scanAttrHandler : Handler := .silent
def setHostnameHandler : Handler := .table [text 64 (aetBoth ||| sizeLimit 64)]
def startSmartconfigHandler : Handler := .silent
def stopSmartconfigHandler : Handler := .silent
def startDiscoverHandler : Handler := .silent
def stopDiscoverHandler : Handler := .silent
def dnsHandler : Handler := .table [text 64 (aetBoth ||| sizeLimit 64)]
def sendTcpHandler : Handler := .table [text 64 (aetBoth ||| sizeLimit 64)]
def sendbufStatusHandler : Handler := .silent
def setMultiConnectHandler : Handler := .table [di (aetBoth ||| sizeLimit 4)]
def setTranslinkSaveHandler : Handler := .silent
def setTransportModeHandler : Handler := .table [di (aetBoth ||| sizeLimit 4)]
def setDnsHandler : Handler := .table [ip (aetBoth ||| sizeLimit 4)]
def readTcpDataHandler : Handler := .silent
def ipdinfoHandler : Handler := .table [di (aetBoth ||| sizeLimit 4)]
def setRecvDataModeHandler : Handler := .silent
def setGpioCfgHandler : Handler := .table (List.replicate 3 (di (aetBoth ||| sizeLimit 12)))
def getGpioCfgHandler : Handler := .newline
def setGpioDirHandler : Handler := .table (List.replicate 2 (di (aetBoth ||| sizeLimit 8)))
def setGpioHandler : Handler := .table (List.replicate 2 (di (aetBoth ||| sizeLimit 8)))
def readGpioHandler : Handler := .table [di (aetBoth ||| sizeLimit 4)]

/-- The mask leaves 72 of the 200 bytes of the field. -/
def otaHandler : Handler := .table [text 200 (aetBoth ||| sizeLimit 200)]

/-- `at_command_table`. -/
def atCommandTable : List (String × Handler) :=
  [("AT", attentionHandler), ("AT+ACT", actHandler), ("AT+RST", resetHandler),
   ("AT+S.HELP", helpHandler), ("AT+S.GCFG", getcfgHandler), ("AT+S.SCFG", setcfgHandler),
   ("AT+S.SSIDTXT", ssidtxtHandler), ("AT&V", configHandler), ("AT&F", factoryHandler),
   ("AT&W", saveHandler), ("AT+S.STS", statusHandler), ("AT+S.PING", pingHandler),
   ("AT+S.SOCKON", sockonHandler), ("AT+S.SOCKW", sockwHandler), ("AT+S.SOCKQ", sockqHandler),
   ("AT+S.SOCKR", sockrHandler), ("AT+S.SOCKC", sockcHandler), ("AT+S.SOCKD", sockdHandler),
   ("AT+S.", modeHandler), ("AT+S.WIFI", wifiHandler), ("AT+S.ROAM", reassociateHandler),
   ("AT+S.SCAN", scanHandler), ("ATE1", echoOnHandler), ("ATE0", echoOffHandler),
   ("etf", etfEnterHandler), ("AT+GMR", versionHandler), ("AT+UART_CUR", uartConfigHandler),
   ("AT+UART_DEF", uartConfigSaveHandler), ("AT+RESTORE", restoreHandler),
   ("AT+CWJAP", joinApHandler), ("AT+CWJAP_CUR", joinApHandler), ("AT+CWJAP_DEF", joinApHandler),
   ("AT+CWLAPOPT", cwlapOptScanHandler), ("AT+CWLAP", cwlapScanHandler),
   ("AT+CWQAP", disconnectHandler), ("AT+CWAUTOCONN", setautoconnectHandler),
   ("AT+CWDHCP", setDhcpHandler), ("AT+CWDHCP_CUR", setDhcpHandler),
   ("AT+CWDHCP_DEF", setDhcpHandler), ("AT+CIPSTAMAC_DEF", setMacHandler),
   ("AT+CIPSTAMAC_CUR", setMacHandler), ("AT+CIPSTAMAC", setMacHandler), ("AT+PING", pingHandler),
   ("AT+CIPSTA_CUR", setIpHandler), ("AT+CIPSTA", setIpHandler), ("AT+CIPSTA_DEF", setIpHandler),
   ("AT+CIPAP_DEF", setApModeHandler), ("AT+CWDHCPS_DEF", dhcpdStartHandler),
   ("AT+CIPSTART", createTcpUdpHandler), ("AT+CIPCLOSE", closeNetworkHandler),
   ("AT+CIPSEND", sendDataHandler), ("AT+CIPSTATUS", networkStatusHandler),
   ("AT+CIPSERVER", apServerHandler), ("AT+CIPSTO", apServerTimeoutHandler),
   ("AT+CIPSERVERMAXCONN", apServerConnHandler), ("AT+CIPRECVMODE", apServerReceiveHandler),
   ("AT+CIPRECVDATA", apServerReceivedataHandler), ("AT+CIPRECVLEN", apServerReceivelenHandler),
   ("AT+CWLIF", dispApinfoHandler), ("AT+CIFSR", dispIpinfoHandler),
   ("AT+CWSAP_DEF", setApcfgHandler), ("AT+PS", powersaveHandler), ("AT+SLEEP", sleepHandler),
   ("AT+WAKEUPGPIO", wakeupgpioHandler), ("AT+CWMODE", wifiModeHandler),
   ("AT+CWMODE_DEF", wifiModeHandler), ("AT+CWLAPOPT", scanAttrHandler),
   ("AT+CWHOSTNAME", setHostnameHandler), ("AT+CWSTARTSMART", startSmartconfigHandler),
   ("AT+CWSTOPSMART", stopSmartconfigHandler), ("AT+CWSTARTDISCOVER", startDiscoverHandler),
   ("AT+CWSTOPDISCOVER", stopDiscoverHandler), ("AT+CIPDOMAIN", dnsHandler),
   ("AT+CIPSENDBUF", sendTcpHandler), ("AT+CIPBUFSTATUS", sendbufStatusHandler),
   ("AT+CIPMUX", setMultiConnectHandler), ("AT+SAVETRANSLINK", setTranslinkSaveHandler),
   ("AT+CIPMODE", setTransportModeHandler), ("AT+CIPDNS", setDnsHandler),
   ("AT+CIPRECVDATA", readTcpDataHandler), ("AT+CIPDINFO", ipdinfoHandler),
   ("AT++CIPRECVMODE", setRecvDataModeHandler), ("AT+SYSIOSETCFG", setGpioCfgHandler),
   ("AT+SYSIOGETCFG", getGpioCfgHandler), ("AT+SYSGPIODIR", setGpioDirHandler),
   ("AT+SYSGPIOWRITE", setGpioHandler), ("AT+SYSGPIOREAD", readGpioHandler),
   ("AT+OTA", otaHandler)]

/-! ## A line to its handler -/

def bytesOf (str : String) : List UInt8 := str.toList.map fun c => UInt8.ofNat c.toNat

/-- What `strcmp` sees of a buffer. -/
def cString (buf : List UInt8) : List UInt8 := buf.takeWhile (· ≠ 0)

def atMatch (cmd : List UInt8) : Option Handler :=
  (atCommandTable.find? fun entry => cString cmd = bytesOf entry.1).map Prod.snd

/-- The parsing that a handler does from the pointer at the end of the name, as its accesses.
`typecfg` is `at_typecfg`, the type of a configuration key. -/
def Handler.run (typecfg : List UInt8 → Option ParaType) (h : Handler) (para : List UInt8) :
    List Access :=
  let equ := para.head? = some atEqu
  match h with
  | .silent => []
  | .newline => (atGetParameters [] para).log
  | .table list => if equ then (atGetParameters list para.tail).log else []
  | .tableOrNewline list =>
    if equ then (atGetParameters list para.tail).log else (atGetParameters [] para).log
  | .setcfg key values =>
    if equ then
      let p := atGetParameters key para.tail
      if p.error ∨ p.values.length ≠ 1 then p.log
      else
        match values.find? fun d => typecfg (cString (p.values.getD 0 [])) = some d.pt with
        | none => p.log
        | some d => p.log ++ (atGetParameters [d] p.para).log
    else []
  | .createTcpUdp type tcp udp =>
    if equ then
      let p := atGetParameters type para.tail
      if p.error ∨ 4 < atAtoi (p.values.getD 0 []) then p.log
      else if cString (p.values.getD 1 []) = bytesOf "TCP" then
        p.log ++ (atGetParameters tcp p.para).log
      else if cString (p.values.getD 1 []) = bytesOf "UDP" then
        p.log ++ (atGetParameters udp p.para).log
      else p.log
    else []

/-- The bytes that the name of a command stops at. -/
def isStop (b : UInt8) : Bool := b = atEqu ∨ b = atLf ∨ b = atQue ∨ b = atCr

/-- The loop of `at_parse_cmd` over the `size` bytes of the line: the name, and the pointer behind
it. The name is an error when it does not fit `at_cmd`. -/
def cmdName : Nat → List UInt8 → List UInt8 → Option (List UInt8 × List UInt8)
  | 0, cptr, atCmd => some (atCmd, cptr)
  | _ + 1, [], atCmd => some (atCmd, [])
  | size + 1, b :: cptr, atCmd =>
    if isStop b then some (atCmd, b :: cptr)
    else if atCmd.length < atCmdMaxSize then cmdName size cptr (atCmd ++ [b])
    else none

def atParseCmd (typecfg : List UInt8 → Option ParaType) (cmdline : List UInt8) (size : Nat) :
    List Access :=
  match cmdName size cmdline [] with
  | none => []
  | some (cmd, cptr) =>
    if cmd = [] then []
    else
      match atMatch cmd with
      | none => []
      | some h => h.run typecfg cptr

end AtCmd
end XR806
