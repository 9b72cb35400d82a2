import Mathlib.Data.List.ReduceOption
import XR806.AtCmd.Stream

/-!
# XR806.AtCmd.Framing

Where `at_parse` passes on what the stream means. The parse state is related to the state of `frame`
(`Rel`), every turn that meets `Meets` keeps the relation (`turn_rel`), and so do whole runs.
-/

namespace XR806
namespace AtCmd
namespace Stream

/-! ## Over any queue -/

section
variable {κ κ' : Type} {src : Source κ} {src' : Source κ'} {inv : κ → Prop} {f : κ → κ'}

theorem getMany_reads (h : src.Reads src' inv f) (n : Nat) : ∀ k, inv k →
    inv (getMany src n k) ∧ getMany src' n (f k) = f (getMany src n k) := by
  induction n with
  | zero => exact fun k hk => ⟨hk, rfl⟩
  | succ n ih =>
    intro k hk
    obtain ⟨hk', heq⟩ := h.get k hk
    have hsnd : (src'.get (f k)).2 = f (src.get k).2 := by rw [heq]
    rw [getMany, getMany, hsnd]
    exact ih _ hk'

theorem receive_reads (h : src.Reads src' inv f) (env : Env) (s : Parse) (tmp : UInt8) {k : κ}
    (hk : inv k) :
    let r := receive src env s tmp k
    inv r.2.1 ∧ receive src' env s tmp (f k) = (r.1, f r.2.1, r.2.2) := by
  obtain ⟨hpk, hpeek⟩ := h.peek k hk
  unfold receive
  by_cases hst : s.sendCache.status = 0
  · simp only [if_pos hst]
    by_cases hlf : tmp = atLf
    · simp only [if_pos hlf]
      exact ⟨hk, trivial⟩
    by_cases hcr : tmp = atCr
    · simp only [if_neg hlf, if_pos hcr, hpeek]
      cases hp : src.peek k with
      | mk next k' =>
        rw [hp] at hpk
        obtain ⟨hgk, hget⟩ := h.get k' hpk
        cases next with
        | none => exact ⟨hpk, rfl⟩
        | some next =>
          by_cases hn : next = atLf
          · simp only [if_pos hn, hget]
            exact ⟨hgk, trivial⟩
          · simp only [if_neg hn]
            exact ⟨hpk, trivial⟩
    · simp only [if_neg hlf, if_neg hcr]
      exact ⟨hk, trivial⟩
  · simp only [if_neg hst]
    split
    · exact ⟨hk, rfl⟩
    · exact ⟨hk, rfl⟩

theorem dispatch_reads (h : src.Reads src' inv f) (env : Env) (s : Parse) {k : κ} (hk : inv k) :
    let r := dispatch src env s k
    inv r.2.1 ∧ dispatch src' env s (f k) = (r.1, f r.2.1, r.2.2) := by
  unfold dispatch
  cases s.flag with
  | false => exact ⟨hk, rfl⟩
  | true =>
    obtain ⟨hg, heq⟩ := getMany_reads h (atParseCmd env s).gets k hk
    simp only [if_true, heq]
    exact ⟨hg, trivial⟩

theorem settle_reads (h : src.Reads src' inv f) (env : Env) (s : Parse) {k : κ} (hk : inv k) :
    let r := settle src env s k
    inv r.1.2 ∧ settle src' env s (f k) = ((r.1.1, f r.1.2), r.2) := by
  obtain ⟨hd, heq⟩ := dispatch_reads h env (expire env s) hk
  simp only [settle, heq]
  exact ⟨hd, trivial⟩

theorem turn_reads (h : src.Reads src' inv f) (env : Env) (s : Parse) {k : κ} (hk : inv k) :
    let r := turn src env (s, k)
    inv r.1.2 ∧ turn src' env (s, f k) = ((r.1.1, f r.1.2), r.2) := by
  obtain ⟨hgk, hget⟩ := h.get k hk
  simp only [turn, hget]
  cases hg : src.get k with
  | mk got k' =>
    rw [hg] at hgk
    cases got with
    | none => exact settle_reads h env s hgk
    | some tmp =>
      obtain ⟨hr, heq⟩ := receive_reads h env s tmp hgk
      simp only [heq]
      cases hrec : receive src env s tmp k' with
      | mk s' r =>
        obtain ⟨k'', on⟩ := r
        rw [hrec] at hr
        cases on with
        | false => exact ⟨hr, rfl⟩
        | true => exact settle_reads h env s' hr

/-- The parser does the same on two sources that give the same answers. -/
theorem atParse_reads (h : src.Reads src' inv f) (env : Env) (n : Nat) : ∀ (s : Parse) (k : κ),
    inv k →
      let r := atParse src env n (s, k)
      inv r.1.2 ∧ atParse src' env n (s, f k) = ((r.1.1, f r.1.2), r.2) := by
  induction n with
  | zero => exact fun s k hk => ⟨hk, rfl⟩
  | succ n ih =>
    intro s k hk
    obtain ⟨ht, heq⟩ := turn_reads h env s hk
    obtain ⟨hr, hrest⟩ := ih (turn src env (s, k)).1.1 (turn src env (s, k)).1.2 ht
    simp only [atParse, heq, hrest]
    exact ⟨hr, trivial⟩

end

/-! ## The parameters of a line, whatever ends it -/

/-- The bytes of a line. -/
def Plain (u : List UInt8) : Prop := ∀ b ∈ u, isTerm b = false

variable {u rest rest' : List UInt8} {t t' b : UInt8}

theorem Plain.cons (h : Plain (b :: u)) : isTerm b = false ∧ Plain u :=
  ⟨h b (by simp), fun x hx => h x (by simp [hx])⟩

theorem Plain.append (h : Plain u) (hb : isTerm b = false) : Plain (u ++ [b]) := by
  intro x hx
  rcases List.mem_append.mp hx with hx | hx
  · exact h x hx
  · rw [List.mem_singleton.mp hx]
    exact hb

theorem isTerm_cases (h : isTerm t = true) : t = atCr ∨ t = atLf := of_decide_eq_true h

theorem not_isTerm (h : isTerm b = false) : b ≠ atCr ∧ b ≠ atLf := by
  simpa [isTerm] using h

/-- The two ends have the same type. -/
theorem paraEnd_term (h : isTerm t = true) (rest : List UInt8) :
    ∃ para log, paraEnd t rest = some { para, overFlag := true, endType := aetLine, log } := by
  rcases isTerm_cases h with rfl | rfl
  · exact ⟨_, _, rfl⟩
  · exact ⟨_, _, rfl⟩

/-- Two scans of one line with different ends behind it. -/
structure Scan.Alike (tail tail' : List UInt8) (s s' : Scan) : Prop where
  out : s'.out = s.out
  overFlag : s'.overFlag = s.overFlag
  error : s'.error = s.error
  endType : s'.endType = s.endType
  para : s.overFlag = false → ∃ u, Plain u ∧ s.para = u ++ tail ∧ s'.para = u ++ tail'

theorem Scan.Alike.after {tail tail' : List UInt8} {s s' : Scan} (h : Scan.Alike tail tail' s s')
    (log log' : List Access) : Scan.Alike tail tail' (s.after log) (s'.after log') :=
  ⟨h.out, h.overFlag, h.error, h.endType, h.para⟩

theorem diLoop_alike (rest rest' : List UInt8) (ht : isTerm t = true) (ht' : isTerm t' = true)
    (hu : Plain u) :
    ∀ out : List UInt8, Scan.Alike (t :: rest) (t' :: rest') (diLoop (u ++ t :: rest) out)
      (diLoop (u ++ t' :: rest') out) := by
  induction u with
  | nil =>
    intro out
    obtain ⟨para, log, he⟩ := paraEnd_term ht rest
    obtain ⟨para', log', he'⟩ := paraEnd_term ht' rest'
    simp only [List.nil_append, diLoop, scanByte, he, he']
    split
    · exact ⟨rfl, rfl, rfl, rfl, fun h => Bool.noConfusion h⟩
    · exact ⟨rfl, rfl, rfl, rfl, fun _ => ⟨[], List.forall_mem_nil _, rfl, rfl⟩⟩
  | cons b u ih =>
    intro out
    obtain ⟨hb, hu'⟩ := hu.cons
    obtain ⟨hcr, hlf⟩ := not_isTerm hb
    have hstay : ∃ v, Plain v ∧ b :: (u ++ t :: rest) = v ++ t :: rest ∧
        b :: (u ++ t' :: rest') = v ++ t' :: rest' := ⟨b :: u, hu, rfl, rfl⟩
    simp only [List.cons_append, diLoop, scanByte]
    by_cases hlim : out.length < intLimit
    · simp only [if_pos hlim]
      refine Scan.Alike.after ?_ _ _
      by_cases hsep : b = atSeparator
      · simp only [hsep, paraEnd, if_true]
        exact ⟨rfl, rfl, rfl, rfl, fun _ => ⟨u, hu', rfl, rfl⟩⟩
      simp only [paraEnd, if_neg hsep, if_neg hcr, if_neg hlf]
      by_cases hcol : b = atColon
      · simp only [if_pos hcol]
        exact ⟨rfl, rfl, rfl, rfl, fun h => Bool.noConfusion h⟩
      simp only [if_neg hcol]
      cases isDec b with
      | true =>
        simp only [if_true]
        exact (ih hu' (out ++ [b])).after _ _
      | false => exact ⟨rfl, rfl, rfl, rfl, fun _ => hstay⟩
    · simp only [if_neg hlim]
      exact ⟨rfl, rfl, rfl, rfl, fun _ => hstay⟩

/-- A table of integers gives the same values. -/
theorem paraLoop_alike (rest rest' : List UInt8) (ht : isTerm t = true) (ht' : isTerm t' = true)
    {list : List Descriptor} (hdi : ∀ d ∈ list, d.pt = .di) : ∀ u : List UInt8, Plain u →
      (paraLoop list (u ++ t' :: rest')).error = (paraLoop list (u ++ t :: rest)).error ∧
      (paraLoop list (u ++ t' :: rest')).values = (paraLoop list (u ++ t :: rest)).values := by
  induction list with
  | nil => exact fun _ _ => ⟨rfl, rfl⟩
  | cons d list ih =>
    intro u hu
    have hd : d.pt = .di := hdi d (by simp)
    obtain ⟨ho, hf, he, hty, hpara⟩ := diLoop_alike rest rest' ht ht' hu []
    have hg : ∀ para, getPara d para = getDiPara d.size d.option para := by
      intro para
      rw [getPara, hd]
    have herr : (getPara d (u ++ t' :: rest')).error = (getPara d (u ++ t :: rest)).error := by
      simp only [hg, getDiPara, Scan.got, ho, he, hty]
    have hval : (getPara d (u ++ t' :: rest')).value = (getPara d (u ++ t :: rest)).value := by
      rw [hg, hg]
      exact ho
    have hover : (getPara d (u ++ t' :: rest')).overFlag =
        (getPara d (u ++ t :: rest)).overFlag := by
      rw [hg, hg]
      exact hf
    unfold paraLoop
    dsimp only
    rw [herr, hover, hval]
    split
    · exact ⟨rfl, rfl⟩
    split
    · exact ⟨rfl, rfl⟩
    · rename_i hno
      have hno' : (diLoop (u ++ t :: rest) []).overFlag = false := by
        rw [hg] at hno
        exact Bool.eq_false_iff.mpr hno
      obtain ⟨v, hv, hp, hp'⟩ := hpara hno'
      have hpa : (getPara d (u ++ t :: rest)).para = v ++ t :: rest := by
        rw [hg]
        exact hp
      have hpa' : (getPara d (u ++ t' :: rest')).para = v ++ t' :: rest' := by
        rw [hg]
        exact hp'
      obtain ⟨h₁, h₂⟩ := ih (fun d' hd' => hdi d' (by simp [hd'])) v hv
      rw [hpa, hpa']
      exact ⟨h₁, by rw [h₂]⟩

theorem isStop_of_isTerm (h : isTerm t = true) : isStop t = true := by
  rcases isTerm_cases h with rfl | rfl <;> decide

theorem sendDataPara_alike (ht : isTerm t = true) (ht' : isTerm t' = true) (hu : Plain u) :
    sendDataPara (u ++ t' :: rest') = sendDataPara (u ++ t :: rest) := by
  have hne : ∀ {t : UInt8}, isTerm t = true → ¬some t = some atEqu := by
    intro t h
    rcases isTerm_cases h with rfl | rfl <;> decide
  rcases u with _ | ⟨b, u⟩
  · simp [sendDataPara, hne ht, hne ht']
  · obtain ⟨h₁, h₂⟩ := paraLoop_alike rest rest' ht ht'
      (show ∀ d ∈ List.replicate 2 (di (aetBoth ||| sizeLimit 12)), d.pt = .di by decide) u
      hu.cons.2
    have hget : ∀ para, atGetParameters (List.replicate 2 (di (aetBoth ||| sizeLimit 12))) para =
        paraLoop (List.replicate 2 (di (aetBoth ||| sizeLimit 12))) para :=
      fun _ => if_neg (by decide)
    simp only [sendDataPara, List.cons_append, List.head?_cons, List.tail_cons, hget, h₁, h₂]

/-- The name of a command, and the bytes of its line behind it. -/
theorem cmdName_line (hu : Plain u) : ∀ acc : List UInt8,
    ∃ r : Option (List UInt8 × List UInt8), (∀ p ∈ r, Plain p.2) ∧
      ∀ (t : UInt8) (rest : List UInt8) (size : Nat), isTerm t = true → u.length < size →
        cmdName size (u ++ t :: rest) acc = r.map fun p => (p.1, p.2 ++ t :: rest) := by
  induction u with
  | nil =>
    intro acc
    refine ⟨some (acc, []), fun p hp => ?_, fun t rest size ht hlt => ?_⟩
    · cases hp
      exact nofun
    · obtain ⟨size, rfl⟩ := Nat.exists_eq_succ_of_ne_zero (Nat.ne_of_gt hlt)
      rw [List.nil_append, cmdName, if_pos (isStop_of_isTerm ht)]
      rfl
  | cons b u ih =>
    intro acc
    obtain ⟨r, hr, hall⟩ := ih hu.cons.2 (acc ++ [b])
    by_cases hstop : isStop b = true
    · refine ⟨some (acc, b :: u), fun p hp => ?_, fun t rest size ht hlt => ?_⟩
      · cases hp
        exact hu
      · obtain ⟨size, rfl⟩ := Nat.exists_eq_succ_of_ne_zero (Nat.ne_of_gt (Nat.zero_lt_of_lt hlt))
        rw [List.cons_append, cmdName, if_pos hstop]
        rfl
    · refine ⟨if acc.length < atCmdMaxSize then r else none, fun p hp => ?_,
        fun t rest size ht hlt => ?_⟩
      · split at hp
        · exact hr p hp
        · exact absurd hp nofun
      · obtain ⟨size, rfl⟩ := Nat.exists_eq_succ_of_ne_zero (Nat.ne_of_gt (Nat.zero_lt_of_lt hlt))
        rw [List.cons_append, cmdName, if_neg hstop]
        split
        · exact hall t rest size ht (by simpa using hlt)
        · rfl

/-! ## The dispatch of a line -/

variable {env : Env} {s : Parse} {f : Framing} {text : List UInt8}

/-- The handler of the line takes its data from the queue itself. -/
def readsQueue (text : List UInt8) : Bool := (command text).map Prod.fst = some .data

/-- What `at_parse_cmd` does with a line, in the words of `frame`. -/
structure Answer.Of (env : Env) (s : Parse) (text : List UInt8) (a : Answer) : Prop where
  sent : a.sent = []
  calls : a.calls = if (sendRequest text).isSome then 1 else 0
  gets : a.gets = if readsQueue text then env.gets s.turn else 0
  none : ready (env.linked s.calls) text = none → a.sendCache = .zero
  some : ∀ link n, ready (env.linked s.calls) text = some (link, n) → a.aec = .sendReady ∧
    a.sendCache = { SendCache.zero with status := 1, linkID := link, length := n }

theorem atParseCmd_line (env : Env) (hzero : s.sendCache = .zero) (hu : Plain text) (ht : isTerm t = true)
    (hcache : s.cache = text ++ t :: rest) : (atParseCmd env s).Of env s text := by
  obtain ⟨r, hr, hall⟩ := cmdName_line hu []
  have hcode := hall t rest s.cache.length ht (by rw [hcache]; simp)
  have hspec := hall atLf [] (text.length + 1) (by decide) (Nat.lt_succ_self _)
  unfold atParseCmd
  rw [hcache] at hcode ⊢
  rw [hcode]
  have hother : ∀ aec, command text = Option.none →
      (s.sendCache.answer aec).Of env s text := by
    intro aec hc
    have hreq : sendRequest text = Option.none := by rw [sendRequest, hc]
    exact ⟨rfl, by rw [hreq]; rfl, by simp [readsQueue, hc, SendCache.answer], fun _ => hzero,
      by simp [ready, hreq]⟩
  rcases r with _ | ⟨cmd, v⟩
  · exact hother _ (by rw [command, hspec]; rfl)
  have hcmd : command text = if cmd = [] then Option.none
      else (called cmd).map fun c => (c, v ++ [atLf]) := by
    rw [command, hspec]
    rfl
  simp only [Option.map_some]
  by_cases hnil : cmd = []
  · rw [if_pos hnil]
    exact hother _ (by rw [hcmd, if_pos hnil])
  rw [if_neg hnil]
  rw [if_neg hnil] at hcmd
  cases hcall : called cmd with
  | none => exact hother _ (by rw [hcmd, hcall]; rfl)
  | some c =>
    rw [hcall, Option.map_some] at hcmd
    cases c with
    | other =>
      have hreq : sendRequest text = Option.none := by rw [sendRequest, hcmd]
      exact ⟨rfl, by rw [hreq]; rfl, by simp [readsQueue, hcmd, SendCache.answer], fun _ => hzero,
        by simp [ready, hreq]⟩
    | data =>
      have hreq : sendRequest text = Option.none := by rw [sendRequest, hcmd]
      exact ⟨rfl, by rw [hreq]; rfl, by simp [readsQueue, hcmd], fun _ => hzero,
        by simp [ready, hreq]⟩
    | send =>
      have hv : Plain v := hr (cmd, v) rfl
      have hreq : sendRequest text = sendDataPara (v ++ [atLf]) := by rw [sendRequest, hcmd]
      have hpara : sendDataPara (v ++ t :: rest) = sendRequest text := by
        rw [hreq, sendDataPara_alike (show isTerm atLf = true by decide) ht hv]
      have hq : readsQueue text = false := by simp [readsQueue, hcmd]
      simp only [sendDataHandler, hpara]
      cases hsr : sendRequest text with
      | none =>
        exact ⟨rfl, by rw [hsr]; rfl, by rw [hq]; rfl, fun _ => hzero, by simp [ready, hsr]⟩
      | some p =>
        obtain ⟨link, n⟩ := p
        have hst : s.sendCache.status = 0 := by rw [hzero]; rfl
        cases hl : env.linked s.calls with
        | false =>
          exact ⟨rfl, by rw [hsr]; rfl, by rw [hq]; rfl, fun _ => hzero, by simp [ready, hsr, hl]⟩
        | true =>
          simp only [hst, if_true, reduceCtorEq, if_false]
          by_cases hbad : 4 ≤ link ∨ cmdSendDataMaxLen < n
          · rw [if_pos hbad]
            refine ⟨rfl, by rw [hsr]; rfl, by rw [hq]; rfl, fun _ => rfl, fun link' n' h => ?_⟩
            simp only [ready, hsr, hl, Option.filter_eq_some_iff, Option.some.injEq] at h
            obtain ⟨heq, hok⟩ := h
            cases heq
            simp at hok
            omega
          · rw [if_neg hbad]
            have hok : ready true text = some (link, n) := by
              have h₁ : link < 4 := by omega
              have h₂ : n ≤ cmdSendDataMaxLen := by omega
              simp [ready, hsr, h₁, h₂]
            refine ⟨rfl, by rw [hsr]; rfl, by rw [hq]; rfl, fun h => ?_, fun link' n' h => ?_⟩
            · rw [hl, hok] at h
              exact absurd h nofun
            · rw [hl, hok] at h
              cases h
              exact ⟨rfl, by rw [hzero]⟩

/-! ## The parser and the stream -/

/-- The state of the parser and that of `frame`, with the bytes to come and what the parser has
still to pass on. -/
inductive Rel (env : Env) : Parse → Framing → List UInt8 → List Event → Prop where
  /-- Inside of a line. -/
  | line {s : Parse} {f : Framing} {next : List UInt8} (zero : s.sendCache = .zero)
    (flag : s.flag = false) (timer : s.sendTimeoutFlag = false) (cache : s.cache = f.text)
    (plain : Plain f.text) (cr : f.cr = true → f.text = []) (data : f.data = none)
    (calls : f.calls = s.calls) : Rel env s f next []
  /-- Inside of a payload. -/
  | data {s : Parse} {f : Framing} {next got old : List UInt8} {link n : Nat}
    (send : s.sendCache = { status := 1, cnt := got.length, linkID := link, length := n,
                            buf := got ++ old })
    (buf : got.length + old.length = cmdSendDataMaxLen) (room : got.length < n)
    (max : n ≤ cmdSendDataMaxLen) (flag : s.flag = false) (data : f.data = some (link, n, got))
    (cr : f.cr = true → next.head? ≠ some atLf) (calls : f.calls = s.calls) : Rel env s f next []
  /-- A payload is complete and its command not yet dispatched. -/
  | full {s : Parse} {f : Framing} {next data : List UInt8} {link : Nat}
    (status : s.sendCache.status = 1) (linkID : s.sendCache.linkID = link)
    (buf : s.sendCache.buf.take s.sendCache.length = data) (cache : s.cache = sendCommand)
    (flag : s.flag = true) (timer : s.sendTimeoutFlag = false)
    (start : f = { text := [], cr := false, data := none, calls := s.calls + 1 }) :
    Rel env s f next (if env.linked s.calls then [.payload link data] else [])

theorem lineEvents_line (hu : Plain text) (ht : isTerm t = true) :
    lineEvents (text ++ t :: rest) = if text = [] then [] else [.line text] := by
  have htake : (text ++ t :: rest).takeWhile (!isTerm ·) = text := by
    rw [List.takeWhile_append_of_pos fun b hb => by rw [hu b hb]; rfl]
    simp [ht]
  rw [lineEvents, htake]

/-- The dispatch of a line does what its end means. -/
theorem dispatch_line {k : List (Option UInt8)} (cr : Bool) (hzero : s.sendCache = .zero)
    (hflag : s.flag = true) (htimer : s.sendTimeoutFlag = false) (hu : Plain f.text)
    (ht : isTerm t = true) (hcache : s.cache = f.text ++ t :: rest) (hcalls : f.calls = s.calls)
    (hlen : f.text.length ≤ cmdCacheMaxLen)
    (hgets : readsQueue f.text = true → env.gets s.turn = 0)
    (hpos : ∀ link n, ready (env.linked s.calls) f.text = some (link, n) → 0 < n)
    {next : List UInt8} (hcr : cr = true → (ready (env.linked s.calls) f.text).isSome = true →
      next.head? ≠ some atLf) :
    let d := dispatch answers env s k
    d.2.1 = k ∧ d.2.2 = (f.endLine env cr).2 ∧
      Rel env { d.1 with turn := d.1.turn + 1 } (f.endLine env cr).1 next [] := by
  obtain ⟨hsent, hcal, hget, hnone, hsome⟩ := atParseCmd_line env hzero hu ht hcache
  have hg0 : (atParseCmd env s).gets = 0 := by
    rw [hget]
    split
    · rename_i h
      exact hgets h
    · rfl
  have hst : s.sendCache.status = 0 := by rw [hzero]; rfl
  unfold dispatch
  simp only [hflag, if_true, hg0, getMany, hst, hcache, lineEvents_line hu ht, hsent,
    List.append_nil, hcal]
  refine ⟨trivial, ?_⟩
  by_cases hnil : f.text = []
  · have hreq : sendRequest f.text = none := by rw [hnil]; decide
    have hready : ready (env.linked s.calls) f.text = none := by simp [ready, hreq]
    have hend : f.endLine env cr = ({ text := [], cr, data := none, calls := f.calls }, []) :=
      if_pos (.inl hnil)
    rw [hend, if_pos hnil, hreq, hnone hready]
    exact ⟨rfl, .line (by simp [SendCache.zero]) rfl htimer rfl nofun (fun _ => rfl) rfl hcalls⟩
  · have hshort : ¬(f.text = [] ∨ cmdCacheMaxLen < f.text.length) := by
      simp only [hnil, false_or, not_lt]
      exact hlen
    rw [if_neg hnil, Framing.endLine, if_neg hshort, hcalls]
    cases hready : ready (env.linked s.calls) f.text with
    | none =>
      rw [hnone hready]
      exact ⟨rfl, .line (by simp [SendCache.zero]) rfl htimer rfl nofun (fun _ => rfl) rfl rfl⟩
    | some p =>
      obtain ⟨link, n⟩ := p
      obtain ⟨haec, hsc⟩ := hsome link n hready
      have hn := hpos link n hready
      have hmax : n ≤ cmdSendDataMaxLen := by
        obtain ⟨-, hok⟩ := Option.filter_eq_some_iff.mp hready
        simp only [Bool.and_eq_true, decide_eq_true_eq] at hok
        exact hok.2
      have hcol : collect env cr (s.calls + if (sendRequest f.text).isSome then 1 else 0) link n [] =
          ({ text := [], cr, data := some (link, n, []),
             calls := s.calls + if (sendRequest f.text).isSome then 1 else 0 }, []) :=
        if_pos hn
      simp only [hcol, haec, hsc, ne_eq, not_true_eq_false, and_false, if_false]
      exact ⟨trivial, .data rfl (show [].length + SendCache.zero.buf.length = _ by
        simp [SendCache.zero]) hn hmax rfl rfl (fun h => hcr h (by simp [hready])) rfl⟩

/-- A line feed behind a carriage return belongs to it. -/
theorem endLine_crlf (env : Env) (f : Framing) :
    f.endLine env false =
      ({ (f.endLine env true).1 with cr := false }, (f.endLine env true).2) := by
  unfold Framing.endLine
  dsimp only
  split
  · rfl
  cases ready (env.linked f.calls) f.text with
  | none => rfl
  | some p =>
    dsimp only [collect]
    split <;> rfl

theorem endLine_cr (env : Env) (f : Framing) (cr : Bool) : (f.endLine env cr).1.cr = cr := by
  unfold Framing.endLine
  dsimp only
  split
  · rfl
  cases ready (env.linked f.calls) f.text with
  | none => rfl
  | some p =>
    dsimp only [collect]
    split <;> rfl

/-- The end of a line that the parser gets right: with its `ends` bytes the line fits the cache,
its handler takes nothing from the queue, and it does not ask for an empty payload. -/
def LineMeets (env : Env) (s : Parse) (text : List UInt8) (ends : Nat) : Prop :=
  text.length + ends ≤ cmdCacheMaxLen ∧
  (readsQueue text = true → env.gets s.turn = 0) ∧
  (ready (env.linked s.calls) text).map Prod.snd ≠ some 0

/-- A turn that the parser gets right, by the answers of the queue to come: no byte of a line
finds the cache full, the line feed of a send command is not late, and no byte comes between the
last one of a payload and the end of its turn. -/
def Meets (env : Env) (s : Parse) : List (Option UInt8) → Prop
  | some tmp :: rest =>
    if s.sendCache.status ≠ 0 then s.flag = false
    else if tmp = atLf then LineMeets env s s.cache 2
    else if tmp = atCr then
      LineMeets env s s.cache (if rest.head? = some (some atLf) then 3 else 2) ∧
      (rest.head? = some none → rest.reduceOption.head? = some atLf →
        ready (env.linked s.calls) s.cache = none)
    else s.cache.length < cmdCacheMaxLen
  | _ => s.sendTimeoutFlag = true → env.ticks s.turn - s.t0 ≤ cmdSendTimeout

instance (env : Env) (s : Parse) (text : List UInt8) (ends : Nat) :
    Decidable (LineMeets env s text ends) := by
  unfold LineMeets
  infer_instance

instance (env : Env) (s : Parse) (rs : List (Option UInt8)) : Decidable (Meets env s rs) := by
  unfold Meets
  split <;> infer_instance

theorem LineMeets.pos {ends : Nat} (h : LineMeets env s text ends) :
    ∀ link n, ready (env.linked s.calls) text = some (link, n) → 0 < n := by
  intro link n hr
  refine Nat.pos_of_ne_zero fun hn => h.2.2 ?_
  rw [hr, hn]
  rfl

theorem expire_timer (h : s.sendTimeoutFlag = false) : expire env s = s := by
  simp [expire, h]

/-- With nothing to get, only a complete payload is handed over. -/
theorem settle_rel {next : List UInt8} {pend : List Event} {k : List (Option UInt8)}
    (h : Rel env s f next pend)
    (hm : s.sendTimeoutFlag = true → env.ticks s.turn - s.t0 ≤ cmdSendTimeout) :
    (settle answers env s k).1.2 = k ∧ (settle answers env s k).2 = pend ∧
      (settle answers env s k).1.1.flag = false ∧
      Rel env (settle answers env s k).1.1 f next [] := by
  have hexp : expire env s = s := by
    rw [expire, if_neg]
    rintro ⟨hf, hlt⟩
    exact absurd (hm hf) (UInt32.not_le.mpr hlt)
  rw [settle, hexp]
  cases h with
  | line zero flag timer cache plain cr data calls =>
    simp only [dispatch, flag, Bool.false_eq_true, if_false]
    exact ⟨trivial, trivial, trivial, .line zero rfl timer cache plain cr data calls⟩
  | data send buf room max flag data cr calls =>
    simp only [dispatch, flag, Bool.false_eq_true, if_false]
    exact ⟨trivial, trivial, trivial, .data send buf room max rfl data cr calls⟩
  | full status linkID buf cache flag timer start =>
    have hname : cmdName s.cache.length s.cache [] =
        some (bytesOf "AT+CIPSEND", bytesOf "=0,1,u" ++ [0]) := by
      rw [cache]
      decide
    have hcall : called (bytesOf "AT+CIPSEND") = some .send := by decide
    have hpara : sendDataPara (bytesOf "=0,1,u" ++ [0]) = some (0, 1) := by decide
    have hne : ¬bytesOf "AT+CIPSEND" = [] := by decide
    simp only [dispatch, flag, if_true, atParseCmd, hname, if_neg hne, hcall, sendDataHandler,
      hpara, status, one_ne_zero, if_false]
    cases hl : env.linked s.calls with
    | false =>
      simp only [if_true, SendCache.answer, status, getMany]
      exact ⟨trivial, rfl, trivial, .line rfl rfl timer (by rw [start]) (by rw [start]; nofun)
        (fun _ => by rw [start]) (by rw [start]) (by rw [start])⟩
    | true =>
      simp only [reduceCtorEq, if_false, status, getMany, linkID, buf]
      exact ⟨trivial, rfl, trivial, .line rfl rfl timer (by rw [start]) (by rw [start]; nofun)
        (fun _ => by rw [start]) (by rw [start]) (by rw [start])⟩

theorem Parse.put_fits (h : s.cache.length < cmdCacheMaxLen) (tmp : UInt8) :
    s.put tmp = ({ s with cache := s.cache ++ [tmp] }, true) := if_pos h

theorem Parse.terminate_fits (h : s.cache.length + 2 ≤ cmdCacheMaxLen) (tmp : UInt8) :
    s.terminate tmp = ({ s with cache := s.cache ++ [tmp, tmp], flag := true }, true) := by
  have h₁ : s.cache.length < cmdCacheMaxLen := by omega
  have h₂ : (s.cache ++ [tmp]).length < cmdCacheMaxLen := by
    simp only [List.length_append, List.length_singleton]
    omega
  simp only [Parse.terminate, Parse.put, if_pos h₁, if_pos h₂, List.append_assoc,
    List.singleton_append]

/-- What a turn leaves that has dispatched a line. -/
structure LineRel (env : Env) (f : Framing) (cr : Bool) (k : List (Option UInt8))
    (next : List UInt8) (r : (Parse × List (Option UInt8)) × List Event) : Prop where
  rest : r.1.2 = k
  events : r.2 = (f.endLine env cr).2
  rel : Rel env r.1.1 (f.endLine env cr).1 next []

/-- The end of a line that the cache holds with the bytes `t :: rest` behind it. -/
theorem settle_line {ends : Nat} (cr : Bool) (k : List (Option UInt8)) (next : List UInt8)
    (zero : s.sendCache = .zero) (flag : s.flag = true) (timer : s.sendTimeoutFlag = false)
    (cache : s.cache = f.text ++ t :: rest) (plain : Plain f.text) (calls : f.calls = s.calls)
    (hm : LineMeets env s f.text ends) (ht : isTerm t = true)
    (hcr : cr = true → (ready (env.linked s.calls) f.text).isSome = true →
      next.head? ≠ some atLf) : LineRel env f cr k next (settle answers env s k) := by
  have hlen : f.text.length ≤ cmdCacheMaxLen := Nat.le_trans (Nat.le_add_right _ ends) hm.1
  rw [settle, expire_timer timer]
  obtain ⟨hk, hev, hrel⟩ := dispatch_line cr zero flag timer plain ht cache calls hlen hm.2.1
    hm.pos hcr
  exact ⟨hk, hev, hrel⟩

/-- What a turn leaves: it has passed on what is now behind it. -/
structure TurnRel (env : Env) (f : Framing) (rs : List (Option UInt8)) (pend : List Event)
    (r : (Parse × List (Option UInt8)) × List Event) (f' : Framing) (pend' : List Event) :
    Prop where
  rel : Rel env r.1.1 f' r.1.2.reduceOption pend'
  events : pend ++ frame env f rs.reduceOption =
    r.2 ++ (pend' ++ frame env f' r.1.2.reduceOption)
  less : r.1.2.length < rs.length

theorem frame_cons (env : Env) (f : Framing) (b : UInt8) (stream : List UInt8) :
    frame env f (b :: stream) = (f.step env b).2 ++ frame env (f.step env b).1 stream := rfl

theorem step_line (hdata : f.data = none) (hb : ¬(f.cr = true ∧ b = atLf)) :
    f.step env b =
      if b = atLf then f.endLine env false
      else if b = atCr then f.endLine env true
      else ({ f with text := f.text ++ [b], cr := false }, []) := by
  rw [Framing.step, if_neg hb, hdata]

theorem turn_on {s' : Parse} {tmp : UInt8} {rs k : List (Option UInt8)}
    (h : receive answers env s tmp rs = (s', k, true)) :
    turn answers env (s, some tmp :: rs) = settle answers env s' k := by
  simp only [turn, show answers.get (some tmp :: rs) = (some tmp, rs) from rfl, h]

theorem turn_over {s' : Parse} {tmp : UInt8} {rs k : List (Option UInt8)}
    (h : receive answers env s tmp rs = (s', k, false)) :
    turn answers env (s, some tmp :: rs) = (({ s' with turn := s'.turn + 1 }, k), []) := by
  simp only [turn, show answers.get (some tmp :: rs) = (some tmp, rs) from rfl, h]

section
variable {rs : List (Option UInt8)}

theorem receive_lf (hst : s.sendCache.status = 0) (h : s.cache.length + 2 ≤ cmdCacheMaxLen) :
    receive answers env s atLf rs =
      ({ s with cache := s.cache ++ [atLf, atLf], flag := true }, rs, true) := by
  simp only [receive, if_pos hst, if_true, Parse.terminate_fits h]

/-- Nothing is there yet behind the carriage return. -/
theorem receive_cr_none (hst : s.sendCache.status = 0) (h : s.cache.length + 2 ≤ cmdCacheMaxLen)
    {k : List (Option UInt8)} (hp : answers.peek rs = (none, k)) : receive answers env s atCr rs =
      ({ s with cache := s.cache ++ [atCr, atCr], flag := true }, k, true) := by
  have hlen : (s.cache ++ [atCr]).length < cmdCacheMaxLen := by
    simp only [List.length_append, List.length_singleton]
    omega
  have hne : ¬atCr = atLf := by decide
  simp only [receive, if_pos hst, if_neg hne, if_true, hp, Parse.put, if_pos hlen,
    List.append_assoc, List.singleton_append]

theorem receive_cr_lf (hst : s.sendCache.status = 0) (h : s.cache.length + 3 ≤ cmdCacheMaxLen) :
    receive answers env s atCr (some atLf :: rs) =
      ({ s with cache := s.cache ++ [atCr, atLf, atLf], flag := true }, rs, true) := by
  have hlen : (s.cache ++ [atCr]).length + 2 ≤ cmdCacheMaxLen := by
    simp only [List.length_append, List.length_singleton]
    omega
  have hne : ¬atCr = atLf := by decide
  have hterm := Parse.terminate_fits (s := { s with cache := s.cache ++ [atCr] }) hlen atLf
  simp only [receive, if_pos hst, if_neg hne, if_true,
    show answers.peek (some atLf :: rs) = (some atLf, some atLf :: rs) from rfl,
    show answers.get (some atLf :: rs) = (some atLf, rs) from rfl, Option.getD_some, hterm,
    List.append_assoc, List.singleton_append]

theorem receive_cr_byte (hst : s.sendCache.status = 0) (h : s.cache.length + 2 ≤ cmdCacheMaxLen)
    {x : UInt8} (hx : x ≠ atLf) : receive answers env s atCr (some x :: rs) =
      ({ s with cache := s.cache ++ [atCr, x], flag := true }, some x :: rs, true) := by
  have hlen : (s.cache ++ [atCr]).length < cmdCacheMaxLen := by
    simp only [List.length_append, List.length_singleton]
    omega
  have hne : ¬atCr = atLf := by decide
  simp only [receive, if_pos hst, if_neg hne, if_true,
    show answers.peek (some x :: rs) = (some x, some x :: rs) from rfl, if_neg hx, Parse.put,
    if_pos hlen, List.append_assoc, List.singleton_append]

theorem receive_byte {tmp : UInt8} (hst : s.sendCache.status = 0) (ht : isTerm tmp = false)
    (h : s.cache.length < cmdCacheMaxLen) : receive answers env s tmp rs =
      ({ s with cache := s.cache ++ [tmp] }, rs, true) := by
  obtain ⟨hcr, hlf⟩ := not_isTerm ht
  simp only [receive, if_pos hst, if_neg hlf, if_neg hcr, Parse.put_fits h]

end

/-- A byte that comes inside of a line. -/
theorem turn_line {tmp : UInt8} {rs : List (Option UInt8)} (zero : s.sendCache = .zero)
    (flag : s.flag = false) (timer : s.sendTimeoutFlag = false) (cache : s.cache = f.text)
    (plain : Plain f.text) (cr : f.cr = true → f.text = []) (data : f.data = none)
    (calls : f.calls = s.calls) (hm : Meets env s (some tmp :: rs)) :
    ∃ f', TurnRel env f (some tmp :: rs) [] (turn answers env (s, some tmp :: rs)) f' [] := by
  have hst : s.sendCache.status = 0 := by rw [zero]; rfl
  have hred : (some tmp :: rs).reduceOption = tmp :: rs.reduceOption := rfl
  simp only [Meets, hst, ne_eq, not_true_eq_false, if_false] at hm
  by_cases hlf : tmp = atLf
  · -- the line feed of a carriage return that the parser has not seen it behind is a blank line
    subst hlf
    rw [if_pos rfl] at hm
    rw [turn_on (receive_lf hst hm.1)]
    rw [cache] at hm ⊢
    obtain ⟨hk, hev, hrel⟩ :=
      settle_line (s := { s with cache := f.text ++ [atLf, atLf], flag := true }) false rs
        rs.reduceOption zero rfl timer rfl plain calls hm (show isTerm atLf = true by decide) nofun
    refine ⟨(f.endLine env false).1, by rw [hk]; exact hrel, ?_, by rw [hk]; simp⟩
    rw [hk, hred, frame_cons, hev]
    by_cases hcr : f.cr = true
    · have hend : f.endLine env false = ({ f with cr := false }, []) := by
        rw [Framing.endLine, if_pos (.inl (cr hcr)), ← cr hcr, ← data]
      rw [hend, Framing.step, if_pos ⟨hcr, rfl⟩]
    · rw [step_line data (by simp [hcr]), if_pos rfl]
      rfl
  rw [if_neg hlf] at hm
  have hno : ¬(f.cr = true ∧ tmp = atLf) := by simp [hlf]
  by_cases hcrb : tmp = atCr
  · subst hcrb
    rw [if_pos rfl] at hm
    obtain ⟨hm, hlate⟩ := hm
    rw [cache] at hm hlate
    have hstep : f.step env atCr = f.endLine env true := by
      rw [step_line data hno, if_neg hlf, if_pos rfl]
    have hterm : isTerm atCr = true := by decide
    rcases rs with _ | ⟨_ | x, rs⟩
    · rw [turn_on (receive_cr_none hst (by rw [cache]; exact hm.1) rfl)]
      obtain ⟨hk, hev, hrel⟩ :=
        settle_line (s := { s with cache := s.cache ++ [atCr, atCr], flag := true }) true []
          [] zero rfl timer (by rw [cache]) plain calls hm hterm (fun _ _ => nofun)
      refine ⟨(f.endLine env true).1, by rw [hk]; exact hrel, ?_, by rw [hk]; simp⟩
      rw [hk, hred, frame_cons, hev, hstep]
      rfl
    · rw [turn_on (receive_cr_none hst (by rw [cache]; exact hm.1) rfl)]
      obtain ⟨hk, hev, hrel⟩ :=
        settle_line (s := { s with cache := s.cache ++ [atCr, atCr], flag := true }) true rs
          rs.reduceOption zero rfl timer (by rw [cache]) plain calls hm hterm
          (fun _ hsome hhead => by rw [hlate rfl hhead] at hsome; exact absurd hsome nofun)
      refine ⟨(f.endLine env true).1, by rw [hk]; exact hrel, ?_, by rw [hk]; simp⟩
      rw [hk, hred, frame_cons, hev, hstep]
      rfl
    · by_cases hx : x = atLf
      · subst hx
        rw [List.head?_cons, if_pos rfl] at hm
        rw [turn_on (receive_cr_lf hst (by rw [cache]; exact hm.1))]
        obtain ⟨hk, hev, hrel⟩ :=
          settle_line (s := { s with cache := s.cache ++ [atCr, atLf, atLf], flag := true }) false
            rs rs.reduceOption zero rfl timer (by rw [cache]) plain calls hm hterm nofun
        refine ⟨(f.endLine env false).1, by rw [hk]; exact hrel, ?_, by rw [hk]; simp⟩
        have hskip : (f.endLine env true).1.step env atLf =
            ((f.endLine env false).1, []) := by
          rw [Framing.step, if_pos ⟨endLine_cr env f true, rfl⟩, endLine_crlf]
        rw [hk, hred, frame_cons, hev, hstep,
          show (some atLf :: rs).reduceOption = atLf :: rs.reduceOption from rfl, frame_cons, hskip,
          endLine_crlf]
        rfl
      · rw [List.head?_cons, if_neg (by simpa using hx)] at hm
        rw [turn_on (receive_cr_byte hst (by rw [cache]; exact hm.1) hx)]
        obtain ⟨hk, hev, hrel⟩ :=
          settle_line (s := { s with cache := s.cache ++ [atCr, x], flag := true }) true
            (some x :: rs) (x :: rs.reduceOption) zero rfl timer (by rw [cache]) plain calls hm
            hterm (fun _ _ => by simpa using hx)
        refine ⟨(f.endLine env true).1, by rw [hk]; exact hrel, ?_, by rw [hk]; simp⟩
        rw [hk, hred, frame_cons, hev, hstep]
        rfl
  · have hbyte : isTerm tmp = false := by simp [isTerm, hlf, hcrb]
    rw [if_neg hcrb] at hm
    rw [turn_on (receive_byte hst hbyte hm)]
    have hrel : Rel env { s with cache := s.cache ++ [tmp] }
        { f with text := f.text ++ [tmp], cr := false } rs.reduceOption [] :=
      .line zero flag timer (by rw [cache]) (plain.append hbyte) nofun data calls
    obtain ⟨hk, hev, -, hrel'⟩ := settle_rel (k := rs) hrel fun h => absurd (timer.symm.trans h) nofun
    refine ⟨_, by rw [hk]; exact hrel', ?_, by rw [hk]; simp⟩
    rw [hk, hred, frame_cons, hev, step_line data hno, if_neg hlf, if_neg hcrb]

/-- A byte that comes inside of a payload. -/
theorem turn_data {tmp : UInt8} {rs : List (Option UInt8)} {got old : List UInt8} {link n : Nat}
    (send : s.sendCache = { status := 1, cnt := got.length, linkID := link, length := n,
                            buf := got ++ old })
    (buf : got.length + old.length = cmdSendDataMaxLen) (room : got.length < n)
    (max : n ≤ cmdSendDataMaxLen) (flag : s.flag = false)
    (data : f.data = some (link, n, got)) (cr : f.cr = true → tmp ≠ atLf)
    (calls : f.calls = s.calls) :
    ∃ f' pend', TurnRel env f (some tmp :: rs) [] (turn answers env (s, some tmp :: rs)) f' pend' := by
  have hred : (some tmp :: rs).reduceOption = tmp :: rs.reduceOption := rfl
  have hstep : f.step env tmp = collect env false s.calls link n (got ++ [tmp]) := by
    rw [Framing.step, if_neg (fun h => cr h.1 h.2), data, calls]
  have hlen : (got ++ [tmp]).length = got.length + 1 := by simp
  obtain ⟨y, old, rfl⟩ : ∃ y rest, old = y :: rest :=
    List.exists_cons_of_length_pos (by omega)
  have hset : (got ++ y :: old).set got.length tmp = got ++ [tmp] ++ old := by
    simp
  by_cases hfull : n ≤ got.length + 1
  · have hn : n = (got ++ [tmp]).length := by omega
    have hrec : ∃ s', receive answers env s tmp rs = (s', rs, false) ∧
        s'.sendCache.status = 1 ∧ s'.sendCache.linkID = link ∧
        s'.sendCache.buf.take s'.sendCache.length = got ++ [tmp] ∧ s'.cache = sendCommand ∧
        s'.flag = true ∧ s'.sendTimeoutFlag = false ∧ s'.calls = s.calls := by
      simp only [receive, send, one_ne_zero, if_false, if_pos hfull, hset]
      refine ⟨_, rfl, ?_⟩
      -- the counter is set back for a long payload, which its dispatch does not look at
      by_cases hbig : cmdCacheMaxLen ≤ got.length + 1
      · simp only [if_pos hbig]
        exact ⟨trivial, trivial, by rw [hn, List.take_left], trivial, trivial, trivial, trivial⟩
      · simp only [if_neg hbig]
        exact ⟨trivial, trivial, by rw [hn, List.take_left], trivial, trivial, trivial, trivial⟩
    obtain ⟨s', hrec, hst, hlink, htake, hcache, hfl, htimer, hcalls⟩ := hrec
    rw [turn_over hrec]
    refine ⟨_, _, .full hst hlink htake hcache hfl htimer rfl, ?_, by simp⟩
    rw [hred, frame_cons, hstep, collect, if_neg (by omega), hcalls]
  · have hrec : ∃ s' on, receive answers env s tmp rs = (s', rs, on) ∧
        s'.sendCache = { status := 1, cnt := (got ++ [tmp]).length, linkID := link, length := n,
                         buf := got ++ [tmp] ++ old } ∧
        s'.flag = false ∧ s'.t0 = env.ticks s'.turn ∧ s'.calls = s.calls := by
      simp only [receive, send, one_ne_zero, if_false, if_neg hfull, hset]
      unfold Parse.put
      split
      · exact ⟨_, _, rfl, by rw [hlen], flag, rfl, rfl⟩
      · exact ⟨_, _, rfl, by rw [hlen], flag, rfl, rfl⟩
    obtain ⟨s', on, hrec, hsend, hfl, ht0, hcalls⟩ := hrec
    have hstep' : f.step env tmp =
        ({ text := [], cr := false, data := some (link, n, got ++ [tmp]), calls := s'.calls },
          []) := by
      rw [hstep, collect, if_pos (by omega), hcalls]
    have hrel : ∀ s'' : Parse, s''.sendCache = s'.sendCache → s''.flag = s'.flag →
        s''.calls = s'.calls →
        Rel env s'' { text := [], cr := false, data := some (link, n, got ++ [tmp]),
                      calls := s'.calls } rs.reduceOption [] := fun s'' h₁ h₂ h₃ =>
      .data (h₁.trans hsend) (by simp only [List.length_cons] at buf; omega) (by omega) max
        (h₂.trans hfl) rfl nofun h₃.symm
    cases on with
    | false =>
      rw [turn_over hrec]
      refine ⟨_, _, hrel _ rfl rfl rfl, ?_, by simp⟩
      rw [hred, frame_cons, hstep']
    | true =>
      rw [turn_on hrec]
      obtain ⟨hk, hev, -, hrel'⟩ := settle_rel (k := rs) (hrel s' rfl rfl rfl) fun _ => by
        rw [ht0, UInt32.sub_self]
        decide
      refine ⟨_, _, by rw [hk]; exact hrel', ?_, by rw [hk]; simp⟩
      rw [hk, hred, frame_cons, hstep', hev]

/-- A turn with a byte or with the answer that there is none. -/
theorem turn_rel {a : Option UInt8} {rs : List (Option UInt8)} {pend : List Event}
    (h : Rel env s f (a :: rs).reduceOption pend) (hm : Meets env s (a :: rs)) :
    ∃ f' pend', TurnRel env f (a :: rs) pend (turn answers env (s, a :: rs)) f' pend' := by
  cases a with
  | none =>
    obtain ⟨hk, hev, -, hrel⟩ := settle_rel (k := rs) h hm
    refine ⟨f, [], ?_, ?_, ?_⟩
    · change Rel env (settle answers env s rs).1.1 f (settle answers env s rs).1.2.reduceOption []
      rw [hk]
      exact hrel
    · change pend ++ frame env f rs.reduceOption = (settle answers env s rs).2 ++
        ([] ++ frame env f (settle answers env s rs).1.2.reduceOption)
      rw [hk, hev]
      rfl
    · change (settle answers env s rs).1.2.length < _
      rw [hk]
      simp
  | some tmp =>
    cases h with
    | line zero flag timer cache plain cr data calls =>
      obtain ⟨f', h'⟩ := turn_line zero flag timer cache plain cr data calls hm
      exact ⟨f', [], h'⟩
    | data send buf room max flag data cr calls =>
      exact turn_data send buf room max flag data
        (fun h he => cr h (by rw [he]; rfl)) calls
    | full status linkID buf cache flag timer start =>
      -- a byte that comes now would be taken for one of the payload
      have hno : s.flag = false := by
        simpa only [Meets, status, ne_eq, one_ne_zero, not_false_eq_true, if_true] using hm
      exact absurd (hno.symm.trans flag) nofun

/-- With the queue empty for good, one more turn passes on what is complete. -/
theorem atParse_nil (n : Nat) : ∀ {s : Parse} {pend : List Event}, Rel env s f [] pend →
    (∀ k < n, Meets env (atParse answers env k (s, [])).1.1 (atParse answers env k (s, [])).1.2) →
      (0 < n ∨ s.flag = false) → (atParse answers env n (s, [])).2 = pend := by
  induction n with
  | zero =>
    intro s pend h _ hf
    have hfl : s.flag = false := hf.resolve_left (lt_irrefl 0)
    cases h with
    | line => rfl
    | data => rfl
    | full status linkID buf cache flag timer start => exact absurd (hfl.symm.trans flag) nofun
  | succ n ih =>
    intro s pend h hm _
    obtain ⟨hk, hev, hfl, hrel⟩ := settle_rel (k := []) h (hm 0 (Nat.succ_pos n))
    have hpair : turn answers env (s, []) = (((settle answers env s []).1.1, []), pend) :=
      Prod.ext (Prod.ext rfl hk) hev
    have hrest := ih hrel (fun k hlt => by
      have := hm (k + 1) (Nat.succ_lt_succ hlt)
      rwa [atParse, hpair] at this) (.inr hfl)
    rw [atParse, hpair]
    dsimp only
    rw [hrest, List.append_nil]

/-- So many turns that every answer of the queue has been looked at, all as they should be. -/
theorem atParse_rel (n : Nat) : ∀ {s : Parse} {f : Framing} {rs : List (Option UInt8)}
    {pend : List Event}, Rel env s f rs.reduceOption pend → rs.length < n →
      (∀ k < n, Meets env (atParse answers env k (s, rs)).1.1 (atParse answers env k (s, rs)).1.2) →
        (atParse answers env n (s, rs)).2 = pend ++ frame env f rs.reduceOption := by
  induction n with
  | zero => exact fun _ hlt => absurd hlt (Nat.not_lt_zero _)
  | succ n ih =>
    intro s f rs pend h hlt hm
    rcases rs with _ | ⟨a, rs⟩
    · exact (atParse_nil (n + 1) h hm (.inl (Nat.succ_pos n))).trans (List.append_nil _).symm
    · obtain ⟨f', pend', hrel, hev, hless⟩ := turn_rel h (hm 0 (Nat.succ_pos n))
      have hrest := ih hrel (by simp only [List.length_cons] at hless hlt; omega)
        fun k hk => hm (k + 1) (Nat.succ_lt_succ hk)
      rw [hev, ← hrest]
      rfl

/-! ## The whole stream -/

theorem reduceOption_answersOf (feed : List (List UInt8)) :
    (feed.flatMap answersOf).reduceOption = feed.flatten := by
  induction feed with
  | nil => rfl
  | cons win feed ih =>
    rw [List.flatMap_cons, List.reduceOption_append, ih, List.flatten_cons, answersOf]
    split
    · rename_i h
      rw [h]
      rfl
    · rw [List.reduceOption, List.filterMap_map]
      simp

/-- The parser behind its queue, so many turns after the start. -/
def run (env : Env) (qbuf : List UInt8) (feed : List (List UInt8)) (n : Nat) :
    (Parse × AtQueue × List (List UInt8)) × List Event :=
  atParse AtQueue.source env n (.start, .init qbuf, feed)

/-- Wherever the callback has nothing in between, the lines and payloads that the parser passes on
are those of the bytes, as long as every turn meets `Meets`. -/
theorem run_frames (env : Env) (qbuf : List UInt8) (feed : List (List UInt8)) (n : Nat)
    (hfit : ∀ win ∈ feed, win.length ≤ qbuf.length) (hn : (feed.flatMap answersOf).length < n)
    (hm : ∀ k < n, Meets env (run env qbuf feed k).1.1
      (AtQueue.toCome (run env qbuf feed k).1.2)) :
    (run env qbuf feed n).2 = frame env .start feed.flatten := by
  have hfed : AtQueue.Fed (.init qbuf, feed) := ⟨AtQueue.valid_init qbuf, hfit⟩
  have hcome : AtQueue.toCome (.init qbuf, feed) = feed.flatMap answersOf := rfl
  have hreads := fun k => (atParse_reads AtQueue.reads env k .start _ hfed).2
  have hrun : ∀ k, atParse answers env k (.start, feed.flatMap answersOf) =
      (((run env qbuf feed k).1.1, AtQueue.toCome (run env qbuf feed k).1.2),
        (run env qbuf feed k).2) := fun k => by
    rw [← hcome, hreads k]
    rfl
  have hstart : Rel env .start .start (feed.flatMap answersOf).reduceOption [] :=
    .line rfl rfl rfl rfl nofun nofun rfl rfl
  have hall := atParse_rel n hstart hn fun k hk => by
    rw [hrun k]
    exact hm k hk
  rw [hrun n, reduceOption_answersOf] at hall
  exact hall

def quiet : Env := { linked := fun _ => true, ticks := fun _ => 0, gets := fun _ => 0 }

theorem run_frames_send :
    (run quiet (List.replicate 32 0)
      [bytesOf "AT+CIPSEND=0,2\r", [], bytesOf "hi", [], bytesOf "AT\r\n"] 40).2 =
        frame quiet .start (bytesOf "AT+CIPSEND=0,2\rhiAT\r\n") :=
  run_frames quiet (List.replicate 32 0)
    [bytesOf "AT+CIPSEND=0,2\r", [], bytesOf "hi", [], bytesOf "AT\r\n"] 40 (by decide) (by decide)
    (by decide)

/-- What comes together with the last byte of a payload is taken for the payload. -/
theorem line_behind_payload_lost :
    (run quiet (List.replicate 32 0) [bytesOf "AT+CIPSEND=0,1\r\nxAT\r\n"] 40).2 =
        [.line (bytesOf "AT+CIPSEND=0,1"), .payload 0 (bytesOf "x")] ∧
      (run quiet (List.replicate 32 0)
        [bytesOf "AT+CIPSEND=0,1\r\nx", [], bytesOf "AT\r\n"] 40).2 =
          [.line (bytesOf "AT+CIPSEND=0,1"), .payload 0 (bytesOf "x"), .line (bytesOf "AT")] ∧
      frame quiet .start (bytesOf "AT+CIPSEND=0,1\r\nxAT\r\n") =
        [.line (bytesOf "AT+CIPSEND=0,1"), .payload 0 (bytesOf "x"), .line (bytesOf "AT")] := by
  decide

end Stream
end AtCmd
end XR806
