import XR806.AtCmd.Command

/-!
# XR806.AtCmd.Bounds

Where the parsing of a command line stays in its buffers. Three of the commands leave them:
`AT+OTA` and `AT+CIPSTART` with a text that is too long, `AT+CIPSTART` with a line that ends behind
the type of the connection, and `AT+CIPSTAMAC` with a separator in front of the end of the line.
-/

namespace XR806
namespace AtCmd

variable {behind para u rest : List UInt8} {b : UInt8}

/-! ## A hex parameter of one byte -/

/-- A group of an address that another one may follow: two digits with quotes anywhere, and a
colon, or a separator and one more byte, whatever it is. -/
def HexGroup (g : List UInt8) : Prop :=
  ∃ u : List UInt8, (∀ b ∈ u, b = atQuo ∨ isHex b = true) ∧ (unquoted u).length = 2 ∧
    (g = u ++ [atColon] ∨ ∃ y, g = u ++ [atSeparator, y])

theorem not_isEnd_of_isHex (h : isHex b = true) :
    isEnd b = false ∧ b ≠ atColon ∧ b ≠ atQuo := by
  refine ⟨?_, ?_, ?_⟩
  · rw [isEnd, decide_eq_false_iff_not]
    rintro (rfl | rfl | rfl) <;> exact absurd h (by decide)
  · rintro rfl
    exact absurd h (by decide)
  · rintro rfl
    exact absurd h (by decide)

section
variable {hexbuf : List UInt8}

theorem hexLoop_end {e : End} (he : paraEnd b rest = some e) : hexLoop 1 (b :: rest) [] hexbuf =
    .after [.read (b :: rest)] (.ended e [] hexbuf) :=
  scanByte_end (by decide) he

theorem hexLoop_colon : hexLoop 1 (atColon :: rest) [] hexbuf =
    .after [.read (atColon :: rest)]
      (.ended ⟨atColon :: rest, false, aetPara, []⟩ [] hexbuf) := by
  refine (scanByte_byte (by decide) (by decide)).trans ?_
  rw [if_pos rfl]

theorem hexLoop_quo : hexLoop 1 (atQuo :: rest) [] hexbuf =
    .after [.read (atQuo :: rest)] (hexLoop 1 rest [] hexbuf) := by
  refine (scanByte_byte (by decide) isEnd_quo).trans ?_
  rw [if_neg (by decide), if_pos rfl]

theorem hexLoop_digit (hb : isHex b = true) (hlt : hexbuf.length < 2) :
    hexLoop 1 (b :: rest) [] hexbuf =
      .after [.read (b :: rest)] (hexLoop 1 rest [] (hexbuf ++ [b])) := by
  obtain ⟨he, hc, hq⟩ := not_isEnd_of_isHex hb
  refine (scanByte_byte (by decide) he).trans ?_
  rw [if_neg hc, if_neg hq, if_pos hlt, if_pos hb]

/-- Any other byte, and a third digit, end the loop without an end of the parameter. -/
theorem hexLoop_other (hb : isEnd b = false) (hc : b ≠ atColon) (hq : b ≠ atQuo)
    (hx : hexbuf.length < 2 → isHex b = false) :
    (hexLoop 1 (b :: rest) [] hexbuf).endType = 0 ∧
      (hexbuf.length < 2 → (hexLoop 1 (b :: rest) [] hexbuf).log = [.read (b :: rest)]) := by
  have hloop : hexLoop 1 (b :: rest) [] hexbuf = .after [.read (b :: rest)] _ :=
    scanByte_byte (by decide) hb
  rw [hloop]
  by_cases hlt : hexbuf.length < 2
  · simp [hc, hq, hlt, hx hlt, Scan.after, Scan.fail]
  · simp [hc, hq, hlt, Scan.after, Scan.stop]

end

theorem hexLoop_digits (hu : ∀ b ∈ u, b = atQuo ∨ isHex b = true) (rest : List UInt8) :
    ∀ hexbuf : List UInt8, hexbuf.length + (unquoted u).length ≤ 2 →
      ∃ log, hexLoop 1 (u ++ rest) [] hexbuf =
        .after log (hexLoop 1 rest [] (hexbuf ++ unquoted u)) := by
  induction u with
  | nil => exact fun hexbuf _ => ⟨[], by simp [Scan.after]⟩
  | cons b u ih =>
    intro hexbuf hlen
    have hux : ∀ b ∈ u, b = atQuo ∨ isHex b = true := fun y hy => hu y (by simp [hy])
    rcases hu b (by simp) with rfl | hb
    · rw [unquoted_quo] at hlen ⊢
      obtain ⟨log, heq⟩ := ih hux hexbuf hlen
      exact ⟨_, by rw [List.cons_append, hexLoop_quo, heq, Scan.after_after]⟩
    · have hq := (not_isEnd_of_isHex hb).2.2
      rw [unquoted_byte hq, List.length_cons] at hlen
      obtain ⟨log, heq⟩ := ih hux (hexbuf ++ [b]) (by simp; omega)
      refine ⟨[.read (b :: (u ++ rest))] ++ log, ?_⟩
      rw [List.cons_append, hexLoop_digit hb (by omega), heq, Scan.after_after, unquoted_byte hq,
        List.append_assoc]
      rfl

/-- A loop that has found an end of the parameter, not of the line, has read digits up to it. -/
theorem hexLoop_found (para : List UInt8) : ∀ hexbuf : List UInt8,
    (hexLoop 1 para [] hexbuf).endType ≠ 0 → (hexLoop 1 para [] hexbuf).overFlag = false →
      ∃ u rest, (∀ b ∈ u, b = atQuo ∨ isHex b = true) ∧
        (hexLoop 1 para [] hexbuf).digits = hexbuf ++ unquoted u ∧
        (para = u ++ atColon :: rest ∧ (hexLoop 1 para [] hexbuf).para = atColon :: rest ∨
          para = u ++ atSeparator :: rest ∧ (hexLoop 1 para [] hexbuf).para = rest) := by
  induction para with
  | nil => exact fun hexbuf he => absurd rfl he
  | cons b para ih =>
    intro hexbuf he ho
    by_cases hsep : b = atSeparator
    · subst hsep
      refine ⟨[], para, by simp, ?_⟩
      rw [hexLoop_end rfl]
      simp [Scan.ended]
    cases hend : isEnd b with
    | true =>
      exfalso
      have hover : (hexLoop 1 (b :: para) [] hexbuf).overFlag = true := by
        simp only [isEnd, decide_eq_true_eq] at hend
        rcases hend with rfl | rfl | rfl
        · exact absurd rfl hsep
        · rw [hexLoop_end rfl]
          rfl
        · rw [hexLoop_end rfl]
          rfl
      simp [hover] at ho
    | false =>
      by_cases hcol : b = atColon
      · subst hcol
        refine ⟨[], para, by simp, ?_⟩
        rw [hexLoop_colon]
        simp [Scan.ended]
      by_cases hquo : b = atQuo
      · subst hquo
        rw [hexLoop_quo] at he ho ⊢
        obtain ⟨u, rest, hu, hd, hr⟩ := ih hexbuf he ho
        refine ⟨atQuo :: u, rest, by simpa using hu, by simpa using hd, ?_⟩
        simpa using hr
      by_cases hx : hexbuf.length < 2 ∧ isHex b = true
      · rw [hexLoop_digit hx.2 hx.1] at he ho ⊢
        obtain ⟨u, rest, hu, hd, hr⟩ := ih (hexbuf ++ [b]) he ho
        refine ⟨b :: u, rest, by simpa [hx.2] using hu, ?_, ?_⟩
        · rw [unquoted_byte hquo]
          simpa using hd
        · simpa using hr
      · exact absurd (hexLoop_other hend hcol hquo (by simpa using hx)).1 he

/-- A byte of the address, of `set_mac_handler`. -/
def macByte : Descriptor := hex 1 (aetBoth ||| sizeLimit 1)

theorem getPara_macByte (para : List UInt8) :
    getPara macByte para = getHexPara 1 (aetBoth ||| sizeLimit 1) para := rfl

theorem macByte_limit : sizeLimit (aetBoth ||| sizeLimit 1) = 1 := by decide

theorem macByte_para : aetPara &&& (aetBoth ||| sizeLimit 1) ≠ 0 := by decide

theorem getPara_group {g : List UInt8} (hg : HexGroup g) (para : List UInt8) :
    (getPara macByte (g ++ para)).error = false ∧
      (getPara macByte (g ++ para)).overFlag = false ∧
        (getPara macByte (g ++ para)).para = para := by
  obtain ⟨u, hu, hlen, rfl | ⟨y, rfl⟩⟩ := hg
  · obtain ⟨log, heq⟩ := hexLoop_digits hu (atColon :: para) [] (by simp [hlen])
    rw [List.nil_append, hexLoop_colon, Scan.after_after] at heq
    rw [getPara_macByte, getHexPara, macByte_limit, List.append_assoc]
    simp [heq, Scan.ended, Scan.got, Scan.put, hlen, macByte_para]
  · obtain ⟨log, heq⟩ := hexLoop_digits hu (atSeparator :: y :: para) [] (by simp [hlen])
    rw [List.nil_append, hexLoop_end rfl, Scan.after_after] at heq
    rw [getPara_macByte, getHexPara, macByte_limit, List.append_assoc]
    simp [heq, Scan.ended, Scan.got, Scan.put, hlen, macByte_para]

theorem getPara_found (he : (getPara macByte para).error = false)
    (ho : (getPara macByte para).overFlag = false) :
    ∃ u rest, (∀ b ∈ u, b = atQuo ∨ isHex b = true) ∧ (unquoted u).length = 2 ∧
      (para = u ++ atColon :: rest ∧ (getPara macByte para).para = rest ∨
        para = u ++ atSeparator :: rest ∧ (getPara macByte para).para = rest.tail) := by
  rw [getPara_macByte, getHexPara, macByte_limit] at he ho ⊢
  dsimp only at he ho ⊢
  split at he
  · rename_i hends
    rw [if_pos hends] at ho ⊢
    obtain ⟨u, rest, hu, hd, hr⟩ := hexLoop_found para [] (endType_ne_zero hends.1) ho
    have hlen : (unquoted u).length = 2 := by simpa [hd] using hends.2
    refine ⟨u, rest, hu, hlen, ?_⟩
    rcases hr with ⟨hp, hr⟩ | ⟨hp, hr⟩
    · exact .inl ⟨hp, by simp [Scan.got, Scan.put, hr]⟩
    · exact .inr ⟨hp, by simp [Scan.got, Scan.put, hr]⟩
  · simp [Scan.got] at he

/-- Where the next byte of the address is read out of the line: behind it, or at a byte that came
behind a `<CR>` and does not end the parsing. -/
def Overrun (behind para : List UInt8) : Prop :=
  para = behind ∨ ∃ next, para = next :: behind ∧
    (next = atCr ∨ next = atQuo ∨ isHex next = true)

theorem hexLoop_reads (para hexbuf : List UInt8) :
    .read para ∈ (hexLoop 1 para [] hexbuf).log := by
  cases para with
  | nil => simp [hexLoop, scanNil, Scan.stop]
  | cons b para => simp [hexLoop, scanByte]

theorem hexLoop_log_subset (para : List UInt8) (list : List Descriptor) {a : Access}
    (h : a ∈ (hexLoop 1 para [] []).log) : a ∈ (paraLoop (macByte :: list) para).log := by
  have hg : a ∈ (getPara macByte para).log := by
    rw [getPara_macByte, getHexPara, macByte_limit]
    dsimp only
    split <;> simp [Scan.got, Scan.put, h]
  unfold paraLoop
  dsimp only
  split_ifs
  · exact hg
  · exact hg
  · exact List.mem_append_left _ hg

theorem not_safe_of_read {log : List Access} (h : .read behind ∈ log) : ¬Safe behind log := by
  intro hs
  exact absurd (hs _ h) (by simp)

/-- The parsing goes on behind the line. -/
theorem Overrun.not_safe (list : List Descriptor) (h : Overrun behind para) :
    ¬Safe behind (paraLoop (macByte :: list) para).log := by
  refine not_safe_of_read (hexLoop_log_subset para list ?_)
  rcases h with rfl | ⟨next, rfl, rfl | rfl | hx⟩
  · exact hexLoop_reads _ _
  · rw [hexLoop_end rfl]
    simp [Scan.ended]
  · rw [hexLoop_quo]
    simp [hexLoop_reads]
  · rw [hexLoop_digit hx (by simp)]
    simp [hexLoop_reads]

/-- The byte behind a `<CR>` is an end or an error. -/
theorem safe_of_not_overrun (list : List Descriptor) {next : UInt8}
    (h : ¬Overrun behind (next :: behind)) :
    Safe behind (paraLoop (macByte :: list) (next :: behind)).log := by
  have hnext : next ≠ atCr ∧ next ≠ atQuo ∧ isHex next = false := by
    refine ⟨fun hc => h (.inr ⟨next, rfl, .inl hc⟩), fun hq => h (.inr ⟨next, rfl, .inr (.inl hq)⟩),
      ?_⟩
    cases hx : isHex next with
    | true => exact absurd (.inr ⟨next, rfl, .inr (.inr hx)⟩) h
    | false => rfl
  obtain ⟨hcr, hquo, hhex⟩ := hnext
  have hloop : (hexLoop 1 (next :: behind) [] []).log = [.read (next :: behind)] ∧
      ¬((hexLoop 1 (next :: behind) [] []).endType &&& (aetBoth ||| sizeLimit 1) ≠ 0 ∧
        (hexLoop 1 (next :: behind) [] []).digits.length = 2) := by
    by_cases hsep : next = atSeparator
    · subst hsep
      rw [hexLoop_end rfl]
      simp [Scan.ended]
    by_cases hlf : next = atLf
    · subst hlf
      rw [hexLoop_end rfl]
      simp [Scan.ended]
    by_cases hcol : next = atColon
    · subst hcol
      rw [hexLoop_colon]
      simp [Scan.ended]
    · have hend : isEnd next = false := by simp [isEnd, hsep, hcr, hlf]
      have hother : (hexLoop 1 (next :: behind) [] []).endType = 0 ∧ _ :=
        hexLoop_other hend hcol hquo fun _ => hhex
      exact ⟨hother.2 (by simp), by simp [hother.1]⟩
  have hg : getPara macByte (next :: behind) =
      (hexLoop 1 (next :: behind) [] []).got (hexLoop 1 (next :: behind) [] []).para false [] := by
    rw [getPara_macByte, getHexPara, macByte_limit]
    exact if_neg hloop.2
  unfold paraLoop
  simp [hg, Scan.got, hloop.1, atParaMaxSize]

/-- One to `n` groups of the address, and then a byte that is read out of the line. -/
def Skips (n : Nat) (behind para : List UInt8) : Prop :=
  ∃ (gs : List (List UInt8)) (next : List UInt8), gs ≠ [] ∧ gs.length ≤ n ∧
    (∀ g ∈ gs, HexGroup g) ∧ para = gs.flatten ++ next ∧ Overrun behind next

theorem HexGroup.length {g : List UInt8} (hg : HexGroup g) : 3 ≤ g.length := by
  obtain ⟨u, -, hlen, hg⟩ := hg
  have hu : (unquoted u).length ≤ u.length := List.length_filter_le _ _
  rcases hg with rfl | ⟨y, rfl⟩
  · simp
    omega
  · simp
    omega

theorem Overrun.length (h : Overrun behind para) : behind.length ≤ para.length := by
  rcases h with rfl | ⟨next, rfl, -⟩ <;> simp

theorem Skips.length {n : Nat} (h : Skips n behind para) : behind.length + 3 ≤ para.length := by
  obtain ⟨gs, next, hne, -, hgs, rfl, ho⟩ := h
  cases gs with
  | nil => exact absurd rfl hne
  | cons g gs =>
    have hg := (hgs g (by simp)).length
    have hn := ho.length
    simp
    omega

/-- The groups are those that the getter sees. -/
theorem skips_group {n : Nat} {g : List UInt8} (hg : HexGroup g) :
    Skips (n + 1) behind (g ++ para) ↔ Overrun behind para ∨ Skips n behind para := by
  constructor
  · rintro ⟨gs, next, hne, hlen, hgs, heq, ho⟩
    cases gs with
    | nil => exact absurd rfl hne
    | cons g' gs =>
      have hpara : para = gs.flatten ++ next := by
        have h := (getPara_group (hgs g' (by simp)) (gs.flatten ++ next)).2.2
        rw [← List.append_assoc, ← List.flatten_cons, ← heq, (getPara_group hg para).2.2] at h
        exact h
      cases gs with
      | nil => exact .inl (by simpa [hpara] using ho)
      | cons g'' gs =>
        exact .inr ⟨g'' :: gs, next, by simp, by simpa using hlen,
          fun x hx => hgs x (List.mem_cons_of_mem _ hx), hpara, ho⟩
  · rintro (ho | ⟨gs, next, -, hlen, hgs, rfl, ho⟩)
    · exact ⟨[g], para, by simp, by simp, by simpa using hg, by simp, ho⟩
    · exact ⟨g :: gs, next, by simp, by simpa using hlen, by simpa [hg] using hgs, by simp, ho⟩

theorem InLine.not_overrun (h : InLine behind para) : ¬Overrun behind para := by
  have hlen := h.inside
  rintro (rfl | ⟨next, rfl, hn⟩)
  · omega
  · cases h with
    | lf => exact absurd hn (by decide)
    | cons _ _ h =>
      have := h.inside
      omega

theorem InLine.tail (h : InLine behind (b :: para)) (hcr : b ≠ atCr) (hlf : b ≠ atLf) :
    InLine behind para := by
  generalize hl : b :: para = line at h
  cases h with
  | lf => exact absurd (List.cons.inj hl).1 hlf
  | cr next => exact absurd (List.cons.inj hl).1 hcr
  | cons _ _ hp => exact (List.cons.inj hl).2 ▸ hp

/-- The pointer after a group, which may have skipped the terminator. -/
theorem InLine.group (h : InLine behind para) (he : (getPara macByte para).error = false)
    (ho : (getPara macByte para).overFlag = false) :
    ∃ g next, HexGroup g ∧ para = g ++ next ∧ (getPara macByte para).para = next ∧
      (InLine behind next ∨ next = behind ∨ ∃ x, next = x :: behind) := by
  obtain ⟨u, rest, hu, hlen, ⟨hpara, hnext⟩ | ⟨hpara, hnext⟩⟩ := getPara_found he ho
  · have hue : ∀ x ∈ u, isEnd x = false := fun x hx => by
      rcases hu x hx with rfl | hx
      · exact isEnd_quo
      · exact (not_isEnd_of_isHex hx).1
    refine ⟨u ++ [atColon], rest, ⟨u, hu, hlen, .inl rfl⟩, by simp [hpara], hnext, .inl ?_⟩
    exact ((hpara ▸ h).drop hue).tail (by decide) (by decide)
  · have hue : ∀ x ∈ u, isEnd x = false := fun x hx => by
      rcases hu x hx with rfl | hx
      · exact isEnd_quo
      · exact (not_isEnd_of_isHex hx).1
    have hrest : InLine behind rest := ((hpara ▸ h).drop hue).tail (by decide) (by decide)
    cases hrest with
    | lf =>
      exact ⟨u ++ [atSeparator, atLf], behind, ⟨u, hu, hlen, .inr ⟨_, rfl⟩⟩, by simp [hpara], hnext,
        .inr (.inl rfl)⟩
    | cr next =>
      exact ⟨u ++ [atSeparator, atCr], next :: behind, ⟨u, hu, hlen, .inr ⟨_, rfl⟩⟩,
        by simp [hpara], hnext, .inr (.inr ⟨next, rfl⟩)⟩
    | @cons y next _ _ hp =>
      exact ⟨u ++ [atSeparator, y], next, ⟨u, hu, hlen, .inr ⟨_, rfl⟩⟩, by simp [hpara], hnext,
        .inl hp⟩

/-- The bytes of an address are read in the line exactly when none of the skipped bytes is the end
of the line. -/
theorem macBytes_safe_iff (n : Nat) : ∀ para : List UInt8, InLine behind para →
    (Safe behind (paraLoop (List.replicate (n + 1) macByte) para).log ↔ ¬Skips n behind para) := by
  induction n with
  | zero =>
    intro para h
    refine iff_of_true (paraLoop_safe _ (by decide) para h) ?_
    rintro ⟨gs, next, hne, hlen, -⟩
    exact hne (List.length_eq_zero_iff.mp (Nat.le_zero.mp hlen))
  | succ n ih =>
    intro para h
    have hsafe : Safe behind (getPara macByte para).log := getPara_safe h (by decide)
    rw [List.replicate_succ]
    by_cases hok : (getPara macByte para).error = false ∧ (getPara macByte para).overFlag = false
    · obtain ⟨he, ho⟩ := hok
      obtain ⟨g, next, hg, hpara, hnext, hcases⟩ := h.group he ho
      have hlog : (paraLoop (macByte :: List.replicate (n + 1) macByte) para).log =
          (getPara macByte para).log ++ (paraLoop (List.replicate (n + 1) macByte) next).log := by
        rw [paraLoop]
        simp [he, ho, hnext]
      rw [hlog, safe_append, and_iff_right hsafe, hpara, skips_group hg, not_or]
      by_cases hin : InLine behind next
      · rw [ih next hin, and_iff_right hin.not_overrun]
      have hshort : ¬Skips n behind next := by
        intro hs
        have hlen := hs.length
        rcases hcases with hp | rfl | ⟨x, rfl⟩
        · exact hin hp
        · omega
        · simp at hlen
      rw [and_iff_left hshort, List.replicate_succ]
      constructor
      · exact fun hs ho => ho.not_safe _ hs
      · intro hover
        rcases hcases with hp | rfl | ⟨x, rfl⟩
        · exact absurd hp hin
        · exact absurd (.inl rfl) hover
        · exact safe_of_not_overrun _ hover
    · have hlog : (paraLoop (macByte :: List.replicate (n + 1) macByte) para).log =
          (getPara macByte para).log := by
        rw [paraLoop]
        dsimp only
        split_ifs with he ho
        · rfl
        · rfl
        · exact absurd ⟨by simpa using he, by simpa using ho⟩ hok
      rw [hlog]
      refine iff_of_true hsafe ?_
      rintro ⟨gs, next, hne, -, hgs, rfl, -⟩
      cases gs with
      | nil => exact hne rfl
      | cons g gs =>
        rw [List.flatten_cons, List.append_assoc] at hok
        obtain ⟨he, ho, -⟩ := getPara_group (hgs g (by simp)) (gs.flatten ++ next)
        exact hok ⟨he, ho⟩

/-! ## The parameters of a connection -/

/-- A number that `get_di_para` takes. -/
def IsNumber (f : List UInt8) : Prop := f ≠ [] ∧ f.length ≤ 10 ∧ ∀ b ∈ f, isDec b = true

theorem not_isEnd_of_isDec (h : isDec b = true) : isEnd b = false ∧ b ≠ atColon := by
  refine ⟨?_, ?_⟩
  · rw [isEnd, decide_eq_false_iff_not]
    rintro (rfl | rfl | rfl) <;> exact absurd h (by decide)
  · rintro rfl
    exact absurd h (by decide)

section
variable {out : List UInt8}

theorem diLoop_digit (hb : isDec b = true) (hlt : out.length < intLimit) :
    diLoop (b :: rest) out =
      .after [.read (b :: rest), .strbuf out.length] (diLoop rest (out ++ [b])) := by
  obtain ⟨he, hc⟩ := not_isEnd_of_isDec hb
  refine (scanByte_byte hlt he).trans ?_
  rw [if_neg hc, if_pos hb, Scan.after_after]
  rfl

theorem diLoop_separator (hlt : out.length < intLimit) : diLoop (atSeparator :: rest) out =
    .after [.read (atSeparator :: rest)] (.ended ⟨rest, false, aetPara, []⟩ out []) :=
  scanByte_end hlt rfl

end

theorem diLoop_number (f rest : List UInt8) (hf : ∀ b ∈ f, isDec b = true) :
    ∀ out : List UInt8, out.length + f.length < intLimit →
      ∃ log, diLoop (f ++ atSeparator :: rest) out =
        .after log (.ended ⟨rest, false, aetPara, []⟩ (out ++ f) []) := by
  induction f with
  | nil =>
    intro out hlen
    exact ⟨_, by rw [List.nil_append, diLoop_separator (by simpa using hlen), List.append_nil]⟩
  | cons b f ih =>
    intro out hlen
    rw [List.length_cons] at hlen
    obtain ⟨log, heq⟩ := ih (fun y hy => hf y (by simp [hy])) (out ++ [b]) (by simp; omega)
    refine ⟨[.read (b :: (f ++ atSeparator :: rest)), .strbuf out.length] ++ log, ?_⟩
    rw [List.cons_append, diLoop_digit (hf b (by simp)) (by omega), heq, Scan.after_after,
      List.append_assoc out]
    rfl

/-- A loop that has found the separator has read digits up to it. -/
theorem diLoop_found (para : List UInt8) : ∀ out : List UInt8, out.length ≤ intLimit →
    (diLoop para out).endType ≠ 0 → (diLoop para out).overFlag = false →
      ∃ f rest, para = f ++ atSeparator :: rest ∧ (∀ b ∈ f, isDec b = true) ∧
        (diLoop para out).out = out ++ f := by
  induction para with
  | nil => exact fun out _ he => absurd rfl he
  | cons b para ih =>
    intro out hlen he ho
    by_cases hlt : out.length < intLimit
    · by_cases hsep : b = atSeparator
      · subst hsep
        refine ⟨[], para, rfl, by simp, ?_⟩
        rw [diLoop_separator hlt]
        simp [Scan.ended]
      cases hdec : isDec b with
      | true =>
        rw [diLoop_digit hdec hlt] at he ho ⊢
        obtain ⟨f, rest, rfl, hf, hout⟩ := ih (out ++ [b]) (by simpa using hlt) he ho
        exact ⟨b :: f, rest, rfl, by simpa [hdec] using hf, by simpa using hout⟩
      | false =>
        exfalso
        rw [diLoop, scanByte, if_pos hlt] at he ho
        cases hend : paraEnd b para with
        | some e =>
          rw [hend] at ho
          unfold paraEnd at hend
          split_ifs at hend <;> cases hend <;> exact absurd ho (by simp [Scan.ended])
        | none =>
          rw [hend] at he ho
          by_cases hcol : b = atColon
          · simp [hcol, Scan.ended] at ho
          · simp [hcol, hdec, Scan.fail] at he
    · rw [diLoop, scanByte, if_neg hlt] at he
      exact absurd rfl he

section
variable {opt : Nat}

theorem getPara_number (ho : BothEnds opt) {f : List UInt8} (hf : IsNumber f)
    (rest : List UInt8) :
    (getPara (di opt) (f ++ atSeparator :: rest)).error = false ∧
      (getPara (di opt) (f ++ atSeparator :: rest)).overFlag = false ∧
        (getPara (di opt) (f ++ atSeparator :: rest)).para = rest ∧
          (getPara (di opt) (f ++ atSeparator :: rest)).value = f := by
  obtain ⟨hne, hlen, hdec⟩ := hf
  obtain ⟨log, heq⟩ := diLoop_number f rest hdec [] (by simp [intLimit]; omega)
  have hpos : 0 < f.length := List.length_pos_iff.mpr hne
  have hlt : f.length < intLimit := by simp [intLimit]; omega
  have hget : getPara (di opt) (f ++ atSeparator :: rest) =
      getDiPara 4 opt (f ++ atSeparator :: rest) := rfl
  rw [hget, getDiPara, heq]
  simp [Scan.ended, Scan.got, ho.1, hpos, hlt]

theorem number_of_getPara (he : (getPara (di opt) para).error = false)
    (ho : (getPara (di opt) para).overFlag = false) :
    ∃ f rest, IsNumber f ∧ para = f ++ atSeparator :: rest := by
  have hget : getPara (di opt) para = getDiPara 4 opt para := rfl
  rw [hget, getDiPara] at he ho
  simp only [Scan.got, Bool.not_eq_false', decide_eq_true_eq] at he ho
  obtain ⟨hend, -, hpos, hlt⟩ := he
  obtain ⟨f, rest, rfl, hdec, hout⟩ :=
    diLoop_found para [] (by simp) (endType_ne_zero hend) ho
  rw [hout, List.nil_append] at hpos hlt
  exact ⟨f, rest, ⟨List.length_pos_iff.mp hpos, Nat.le_of_lt_succ hlt, hdec⟩, rfl⟩

end

def connectOpt : Nat := aetBoth ||| sizeLimit 84

/-- The second table of `create_tcp_udp_handler`, the same for both types. -/
def connectList : List Descriptor := [text 64 connectOpt, di connectOpt, di connectOpt]

theorem connectOpt_both : BothEnds connectOpt := ⟨by decide, by decide⟩

theorem connectOpt_limit : sizeLimit connectOpt = 84 := by decide

theorem atParaMaxSize_lt_connectOpt : atParaMaxSize < sizeLimit connectOpt := by decide

theorem getPara_text (size opt : Nat) (para : List UInt8) :
    getPara (text size opt) para = getTextPara size opt para := rfl

theorem safe_getPara {d : Descriptor} {list : List Descriptor}
    (h : Safe behind (paraLoop (d :: list) para).log) : Safe behind (getPara d para).log := by
  unfold paraLoop at h
  dsimp only at h
  split_ifs at h
  · exact h
  · exact h
  · exact (safe_append.mp h).1

/-- The host name of a connection whose type ends with a separator. -/
theorem connectList_safe_iff (h : InLine behind para) :
    Safe behind (paraLoop connectList para).log ↔ (textOf para).length < atParaMaxSize := by
  have hiff := getTextPara_safe_iff 64 connectOpt_both atParaMaxSize_lt_connectOpt h
    (by decide)
  constructor
  · exact fun hs => (hiff.mp (safe_getPara hs)).1
  · intro hlt
    have hsafe : Safe behind (getPara (text 64 connectOpt) para).log := hiff.mpr ⟨hlt, hlt⟩
    obtain ⟨u, b, rest, e, rfl, hu, he, hes⟩ := h.field
    rw [textOf_field hu (isEnd_of_paraEnd he)] at hlt
    obtain ⟨hpara, hover, -, -, -⟩ := getTextPara_field 64 connectOpt_both
      atParaMaxSize_lt_connectOpt hu he h hes hlt
    unfold connectList paraLoop
    dsimp only
    split_ifs with herr ho
    · exact hsafe
    · exact hsafe
    · refine safe_append.mpr ⟨hsafe, paraLoop_safe _ (by decide) _ ?_⟩
      rw [getPara_text] at ho ⊢
      rw [hpara]
      refine hes.para ?_
      rw [← hover]
      simpa using ho

theorem textLoop_reads (limit : Nat) (para : List UInt8) (hl : 0 < limit) :
    .read para ∈ (textLoop limit para []).log := by
  cases para with
  | nil => simp [textLoop, scanNil, Scan.stop, hl]
  | cons b para => simp [textLoop, scanByte, hl]

theorem mem_connectList {a : Access} (h : a ∈ (textLoop 84 para []).log) :
    a ∈ (paraLoop connectList para).log := by
  have hg : a ∈ (getPara (text 64 connectOpt) para).log := by
    rw [getPara_text, getTextPara, connectOpt_limit]
    exact List.mem_cons_of_mem _ (List.mem_append_left _ h)
  unfold connectList paraLoop
  dsimp only
  split_ifs
  · exact hg
  · exact hg
  · exact List.mem_append_left _ hg

/-- The line is over when the host name is looked for. -/
theorem connectList_behind : ¬Safe behind (paraLoop connectList behind).log :=
  not_safe_of_read (mem_connectList (textLoop_reads 84 behind (by decide)))

theorem textLoop_reads_out (limit : Nat) (out : List UInt8) (hl : out.length < limit) :
    .read behind ∈ (textLoop limit behind out).log := by
  cases behind with
  | nil => simp [textLoop, scanNil, Scan.stop, hl]
  | cons b para => simp [textLoop, scanByte, hl]

/-- The byte that came behind the `<CR>` of the line is an empty host name, or is not the last one
that is read. -/
theorem connectList_cr {next : UInt8} (hlf : next ≠ atLf) :
    Safe behind (paraLoop connectList (next :: behind)).log ↔ next = atSeparator := by
  constructor
  · intro hs
    by_contra hsep
    refine not_safe_of_read (mem_connectList ?_) hs
    by_cases hcr : next = atCr
    · rw [hcr, textLoop_end (by decide) rfl]
      simp [Scan.ended]
    by_cases hquo : next = atQuo
    · rw [hquo, textLoop_quo (by decide)]
      simp [textLoop_reads]
    · rw [textLoop_byte (by decide) (by simp [isEnd, hsep, hcr, hlf]) hquo]
      simp [textLoop_reads_out]
  · rintro rfl
    have hg : getPara (text 64 connectOpt) (atSeparator :: behind) =
        getTextPara 64 connectOpt (atSeparator :: behind) := rfl
    unfold connectList paraLoop
    rw [hg, getTextPara, textLoop_end (by decide) rfl]
    simp [Scan.ended, Scan.got, atParaMaxSize]

/-- The parameters of a connection: the type is at most three bytes, and a known type on one of the
five links is followed by a host name that fits, or by the separator as the byte behind `<CR>`. -/
def ConnectFits (behind para : List UInt8) : Prop :=
  ∀ f next : List UInt8, para = f ++ atSeparator :: next → IsNumber f →
    (textOf next).length < 4 ∧
      (atAtoi f ≤ 4 → textOf next = bytesOf "TCP" ∨ textOf next = bytesOf "UDP" →
        (∃ host, endOf next = atSeparator :: host ∧ (textOf host).length < atParaMaxSize) ∨
          endOf next = atCr :: atSeparator :: behind)

theorem eq_of_cString {t w : List UInt8} (h : cString t = w) (hlen : t.length ≤ w.length) :
    t = w := by
  have hp : cString t <+: t := List.takeWhile_prefix _
  rw [h] at hp
  exact (hp.eq_of_length_le hlen).symm

theorem connectType {t : List UInt8} (hlen : t.length < 4) :
    (cString t = bytesOf "TCP" ↔ t = bytesOf "TCP") ∧
      (cString t = bytesOf "UDP" ↔ t = bytesOf "UDP") := by
  have htcp : (bytesOf "TCP").length = 3 := by decide
  have hudp : (bytesOf "UDP").length = 3 := by decide
  refine ⟨⟨fun h => eq_of_cString h (by omega), ?_⟩, ⟨fun h => eq_of_cString h (by omega), ?_⟩⟩
  · rintro rfl
    decide
  · rintro rfl
    decide

/-- The pointer behind the type, at the host name or behind the line. -/
theorem connectHost_safe_iff {e : End} (he : paraEnd b rest = some e)
    (h : InLine behind (b :: rest)) : Safe behind (paraLoop connectList e.para).log ↔
      (∃ host, b :: rest = atSeparator :: host ∧ (textOf host).length < atParaMaxSize) ∨
        b :: rest = atCr :: atSeparator :: behind := by
  generalize hl : b :: rest = line at h
  cases h with
  | lf =>
    cases hl
    cases he
    refine iff_of_false connectList_behind ?_
    rintro (⟨host, hh, -⟩ | hh)
    · exact absurd (List.cons.inj hh).1 (by decide)
    · exact absurd (List.cons.inj hh).1 (by decide)
  | cr next =>
    cases hl
    cases he
    have hright : ((∃ host, atCr :: next :: behind = atSeparator :: host ∧
        (textOf host).length < atParaMaxSize) ∨
          atCr :: next :: behind = atCr :: atSeparator :: behind) ↔ next = atSeparator := by
      constructor
      · rintro (⟨host, hh, -⟩ | hh)
        · exact absurd (List.cons.inj hh).1 (by decide)
        · exact (List.cons.inj (List.cons.inj hh).2).1
      · rintro rfl
        exact .inr rfl
    rw [hright]
    by_cases hlf : next = atLf
    · subst hlf
      exact iff_of_false connectList_behind (by decide)
    · simpa [hlf] using connectList_cr hlf
  | cons hcr hlf hp =>
    cases hl
    have hsep : b = atSeparator := by
      have hend := isEnd_of_paraEnd he
      simpa [isEnd, hcr, hlf] using hend
    subst hsep
    cases he
    rw [connectList_safe_iff hp]
    constructor
    · exact fun hlt => .inl ⟨rest, rfl, hlt⟩
    · rintro (⟨host, hh, hlt⟩ | hh)
      · exact (List.cons.inj hh).2 ▸ hlt
      · exact absurd (List.cons.inj hh).1 (by decide)

/-- The first table of `create_tcp_udp_handler`. -/
def connectType2 : List Descriptor := [di connectOpt, text 4 connectOpt]

theorem createTcpUdp_safe (typecfg : List UInt8 → Option ParaType) (para : List UInt8) :
    let p := paraLoop connectType2 para
    Safe behind (createTcpUdpHandler.run typecfg (atEqu :: para)) ↔ Safe behind p.log ∧
      (p.error = false → atAtoi (p.values.getD 0 []) ≤ 4 →
        cString (p.values.getD 1 []) = bytesOf "TCP" ∨
          cString (p.values.getD 1 []) = bytesOf "UDP" →
            Safe behind (paraLoop connectList p.para).log) := by
  have hrun : createTcpUdpHandler.run typecfg (atEqu :: para) =
      let p := paraLoop connectType2 para
      if p.error ∨ 4 < atAtoi (p.values.getD 0 []) then p.log
      else if cString (p.values.getD 1 []) = bytesOf "TCP" then
        p.log ++ (paraLoop connectList p.para).log
      else if cString (p.values.getD 1 []) = bytesOf "UDP" then
        p.log ++ (paraLoop connectList p.para).log
      else p.log := rfl
  rw [hrun]
  dsimp only
  split_ifs with hstop htcp hudp
  · refine (and_iff_left fun he hle => ?_).symm
    rcases hstop with hstop | hstop
    · simp [he] at hstop
    · omega
  · simp only [not_or, Bool.not_eq_true, not_lt] at hstop
    rw [safe_append]
    exact and_congr_right fun _ => ⟨fun hs _ _ _ => hs, fun hs => hs hstop.1 hstop.2 (.inl htcp)⟩
  · simp only [not_or, Bool.not_eq_true, not_lt] at hstop
    rw [safe_append]
    exact and_congr_right fun _ => ⟨fun hs _ _ _ => hs, fun hs => hs hstop.1 hstop.2 (.inr hudp)⟩
  · exact (and_iff_left fun _ _ ht => absurd ht (not_or.mpr ⟨htcp, hudp⟩)).symm

/-- The first table when the link is a number in front of a separator. -/
theorem connectType_link (he : (getPara (di connectOpt) para).error = false)
    (ho : (getPara (di connectOpt) para).overFlag = false) :
    let g := getPara (di connectOpt) para
    let t := getTextPara 4 connectOpt g.para
    let p := paraLoop connectType2 para
    p.log = g.log ++ t.log ∧ p.error = t.error ∧
      (t.error = false → p.para = t.para ∧ p.values = [g.value, t.value]) := by
  have ht : ∀ l, getPara (text 4 connectOpt) l = getTextPara 4 connectOpt l := fun _ => rfl
  unfold connectType2 paraLoop
  simp only [he, ho, paraLoop, ht]
  cases (getTextPara 4 connectOpt (getPara (di connectOpt) para).para).error <;>
    cases (getTextPara 4 connectOpt (getPara (di connectOpt) para).para).overFlag <;> simp

/-- The first table when it stops at the link. -/
theorem connectType_stop (hstop : ¬((getPara (di connectOpt) para).error = false ∧
    (getPara (di connectOpt) para).overFlag = false)) :
    let p := paraLoop connectType2 para
    p.log = (getPara (di connectOpt) para).log ∧ p.values.getD 1 [] = [] := by
  unfold connectType2 paraLoop
  cases he : (getPara (di connectOpt) para).error with
  | true => simp [he]
  | false =>
    cases ho : (getPara (di connectOpt) para).overFlag with
    | true => simp [he, ho]
    | false => exact absurd ⟨he, ho⟩ hstop

/-- The link of a connection is what stands in front of the separator. -/
theorem connectFits_link {f next : List UInt8} (hf : IsNumber f) :
    ConnectFits behind (f ++ atSeparator :: next) ↔ (textOf next).length < 4 ∧
      (atAtoi f ≤ 4 → textOf next = bytesOf "TCP" ∨ textOf next = bytesOf "UDP" →
        (∃ host, endOf next = atSeparator :: host ∧ (textOf host).length < atParaMaxSize) ∨
          endOf next = atCr :: atSeparator :: behind) := by
  constructor
  · exact fun hc => hc f next rfl hf
  · intro hc f' next' heq hf'
    obtain ⟨-, -, hp, hv⟩ := getPara_number connectOpt_both hf next
    obtain ⟨-, -, hp', hv'⟩ := getPara_number connectOpt_both hf' next'
    rw [heq] at hp hv
    obtain rfl : next = next' := hp.symm.trans hp'
    obtain rfl : f = f' := hv.symm.trans hv'
    exact hc

theorem bytesOf_type_ne_nil : cString [] ≠ bytesOf "TCP" ∧ cString [] ≠ bytesOf "UDP" := by
  decide

/-- The parameters of `create_tcp_udp_handler` stay in their buffers exactly when they fit. -/
theorem createTcpUdp_safe_iff (typecfg : List UInt8 → Option ParaType) (h : InLine behind para) :
    Safe behind (createTcpUdpHandler.run typecfg (atEqu :: para)) ↔ ConnectFits behind para := by
  refine (createTcpUdp_safe typecfg para).trans ?_
  have hlink : (getPara (di connectOpt) para).Stays behind := getPara_stays h (by decide) (by decide)
  by_cases hok : (getPara (di connectOpt) para).error = false ∧
      (getPara (di connectOpt) para).overFlag = false
  · obtain ⟨he, ho⟩ := hok
    obtain ⟨hlog, herr, hnext⟩ := connectType_link he ho
    have hin := hlink.para he ho
    obtain ⟨f, next, hf, rfl⟩ := number_of_getPara he ho
    obtain ⟨-, -, hpara, hvalue⟩ := getPara_number connectOpt_both hf next
    rw [hpara] at hin hlog herr hnext
    rw [hvalue] at hnext
    rw [connectFits_link hf, hlog, safe_append, and_iff_right hlink.safe,
      getTextPara_safe_iff 4 connectOpt_both atParaMaxSize_lt_connectOpt hin (by decide)]
    have hmin : (textOf next).length < atParaMaxSize ∧ (textOf next).length < 4 ↔
        (textOf next).length < 4 := and_iff_right_of_imp fun hlt => by
      have h4 : 4 ≤ atParaMaxSize := by decide
      omega
    rw [hmin]
    refine and_congr_right fun hlt => ?_
    obtain ⟨u, b, rest, e, rfl, hu, hend, hes⟩ := hin.field
    have hb := isEnd_of_paraEnd hend
    have hfit := (hmin.mpr hlt).1
    rw [textOf_field hu hb] at hlt hfit ⊢
    rw [endOf_field hu hb]
    obtain ⟨htpara, -, htvalue, hterr, -⟩ := getTextPara_field 4 connectOpt_both
      atParaMaxSize_lt_connectOpt hu hend hin hes hfit
    by_cases hempty : unquoted u = []
    · have hne := bytesOf_type_ne_nil
      rw [hempty]
      refine iff_of_true (fun hpe => ?_) (fun _ ht => ?_)
      · exact absurd hempty (hterr.mp (herr.symm.trans hpe))
      · rcases ht with ht | ht
        · exact absurd ht (by decide)
        · exact absurd ht (by decide)
    · have hte := hterr.mpr hempty
      obtain ⟨hp, hv⟩ := hnext hte
      have hv0 : (paraLoop connectType2 (f ++ atSeparator :: (u ++ b :: rest))).values.getD 0 [] =
          f := by rw [hv]; rfl
      have hv1 : (paraLoop connectType2 (f ++ atSeparator :: (u ++ b :: rest))).values.getD 1 [] =
          unquoted u := by rw [hv, htvalue]; rfl
      rw [hv0, hv1, hp, htpara, (connectType hlt).1, (connectType hlt).2,
        connectHost_safe_iff hend (hin.drop hu)]
      exact ⟨fun hc => hc (herr.trans hte), fun hc _ => hc⟩
  · obtain ⟨hlog, hv⟩ := connectType_stop hok
    refine iff_of_true ⟨hlog ▸ hlink.safe, fun _ _ ht => ?_⟩ ?_
    · rw [hv] at ht
      exact absurd ht (not_or.mpr bytesOf_type_ne_nil)
    · rintro f next rfl hf
      obtain ⟨he, ho, -⟩ := getPara_number connectOpt_both hf next
      exact absurd ⟨he, ho⟩ hok

/-! ## All the commands -/

theorem textLoop_over {limit : Nat} (para : List UInt8) : ∀ out : List UInt8,
    (textLoop limit para out).overFlag = true → (textLoop limit para out).endType = aetLine := by
  induction para with
  | nil => exact fun out ho => absurd ho (by simp [textLoop, scanNil, Scan.stop])
  | cons b para ih =>
    intro out ho
    by_cases hlt : out.length < limit
    · cases hb : isEnd b with
      | true =>
        have hsome : ∃ e, paraEnd b para = some e ∧ (e.overFlag = true → e.endType = aetLine) := by
          simp only [isEnd, decide_eq_true_eq] at hb
          rcases hb with rfl | rfl | rfl
          · exact ⟨_, rfl, fun h => absurd h (by simp)⟩
          · exact ⟨_, rfl, fun _ => rfl⟩
          · exact ⟨_, rfl, fun _ => rfl⟩
        obtain ⟨e, he, hover⟩ := hsome
        rw [textLoop_end hlt he] at ho ⊢
        exact hover ho
      | false =>
        by_cases hq : b = atQuo
        · rw [hq, textLoop_quo hlt] at ho ⊢
          exact ih out ho
        · rw [textLoop_byte hlt hb hq] at ho ⊢
          exact ih _ ho
    · rw [textLoop, scanByte, if_neg hlt] at ho
      simp [Scan.stop] at ho

/-- A handler whose tables fit, and whose second table is reached inside the line only. -/
def Handler.fits : Handler → Bool
  | .silent | .newline => true
  | .table list | .tableOrNewline list => list ≠ [] ∧ tableFits list
  | .setcfg [key] values =>
    key.pt = .text ∧ key.fits ∧ aetLine &&& key.option = 0 ∧ ∀ d ∈ values, d.fits
  | _ => false

theorem atGetNewline_safe (h : InLine behind para) : Safe behind (atGetNewline para).log := by
  unfold atGetNewline
  cases h with
  | lf => simp [atLf, atCr]
  | cr next => simp
  | cons hcr _ hp =>
    have := hp.inside
    simp [hcr]
    omega

theorem atGetParameters_safe {list : List Descriptor} (h : InLine behind para) (hne : list ≠ [])
    (hf : tableFits list = true) : Safe behind (atGetParameters list para).log := by
  rw [atGetParameters, if_neg hne]
  exact paraLoop_safe list hf para h

/-- The pointer at the end of the name, and the one behind the `=`. -/
theorem InLine.argument (h : InLine behind para) (he : para.head? = some atEqu) :
    InLine behind para.tail := by
  cases para with
  | nil => exact absurd h not_inLine_nil
  | cons b para =>
    obtain rfl : b = atEqu := by simpa using he
    exact h.tail (by decide) (by decide)

/-- A key that is not the end of its line leaves the pointer in the line. -/
theorem paraLoop_key {key : Descriptor} (h : InLine behind para) (hpt : key.pt = .text)
    (hfits : key.fits = true) (hline : aetLine &&& key.option = 0)
    (he : (paraLoop [key] para).error = false) : InLine behind (paraLoop [key] para).para := by
  have hg := getPara_stays h hfits (by simp [hpt])
  have hget : getPara key para = getTextPara key.size key.option para := by
    rw [getPara, hpt]
  have hover : (getPara key para).error = false → (getPara key para).overFlag = false := by
    rw [hget, getTextPara]
    simp only [Scan.got, Bool.not_eq_false', decide_eq_true_eq]
    rintro ⟨hend, -⟩
    by_contra ho
    rw [textLoop_over para [] (by simpa using ho)] at hend
    exact hend hline
  unfold paraLoop at he ⊢
  cases herr : (getPara key para).error with
  | true => simp [herr] at he
  | false => simpa [herr, hover herr, paraLoop] using hg.para herr (hover herr)

theorem Handler.run_safe (typecfg : List UInt8 → Option ParaType) {handler : Handler}
    (hf : handler.fits = true) (h : InLine behind para) :
    Safe behind (handler.run typecfg para) := by
  cases handler with
  | silent => exact .nil
  | newline => exact atGetNewline_safe h
  | table list =>
    obtain ⟨hne, hfits⟩ := of_decide_eq_true hf
    unfold Handler.run
    dsimp only
    split
    · rename_i he
      exact atGetParameters_safe (h.argument he) hne hfits
    · exact .nil
  | tableOrNewline list =>
    obtain ⟨hne, hfits⟩ := of_decide_eq_true hf
    unfold Handler.run
    dsimp only
    split
    · rename_i he
      exact atGetParameters_safe (h.argument he) hne hfits
    · exact atGetNewline_safe h
  | setcfg key values =>
    match key with
    | [] => simp [Handler.fits] at hf
    | _ :: _ :: _ => simp [Handler.fits] at hf
    | [key] =>
      obtain ⟨hpt, hkey, hline, hvalues⟩ := of_decide_eq_true hf
      unfold Handler.run
      dsimp only
      split
      · rename_i he
        have harg := h.argument he
        have hsafe : Safe behind (paraLoop [key] para.tail).log :=
          paraLoop_safe [key] (by simpa [tableFits] using hkey) _ harg
        have hkeys : atGetParameters [key] para.tail = paraLoop [key] para.tail :=
          if_neg (List.cons_ne_nil _ _)
        rw [hkeys]
        split
        · exact hsafe
        · rename_i hok
          split
          · exact hsafe
          · rename_i d hd
            have hnext : InLine behind (paraLoop [key] para.tail).para :=
              paraLoop_key harg hpt hkey hline (by simpa using (not_or.mp hok).1)
            refine safe_append.mpr ⟨hsafe, atGetParameters_safe hnext (List.cons_ne_nil _ _) ?_⟩
            simpa [tableFits] using hvalues d (List.mem_of_find?_eq_some hd)
      · exact .nil
  | createTcpUdp type tcp udp => simp [Handler.fits] at hf

/-- Every command but three has tables that fit. -/
theorem atCommandTable_fits : ∀ entry ∈ atCommandTable, entry.2.fits = true ∨
    entry.2 = otaHandler ∨ entry.2 = setMacHandler ∨ entry.2 = createTcpUdpHandler := by
  decide

/-- What the argument of the three commands must keep to. -/
structure Handler.ArgumentFits (behind : List UInt8) (handler : Handler) (para : List UInt8) :
    Prop where
  ota : handler = otaHandler → (textOf para).length < atParaMaxSize
  mac : handler = setMacHandler → ¬Skips 5 behind para
  connect : handler = createTcpUdpHandler → ConnectFits behind para

theorem Handler.run_equ (typecfg : List UInt8 → Option ParaType) (list : List Descriptor)
    (hne : list ≠ []) (para : List UInt8) :
    (Handler.table list).run typecfg (atEqu :: para) = (paraLoop list para).log := by
  simp [Handler.run, atGetParameters, hne]

theorem Handler.run_of_ne {typecfg : List UInt8 → Option ParaType} {handler : Handler}
    (hb : b ≠ atEqu) (h : handler = otaHandler ∨ handler = setMacHandler ∨
      handler = createTcpUdpHandler) : handler.run typecfg (b :: rest) = [] := by
  rcases h with rfl | rfl | rfl <;> exact if_neg (by simpa using hb)

theorem Handler.not_fits (handler : Handler) (h : handler = otaHandler ∨
    handler = setMacHandler ∨ handler = createTcpUdpHandler) : handler.fits = false := by
  rcases h with rfl | rfl | rfl <;> decide

theorem otaHandler_safe_iff (typecfg : List UInt8 → Option ParaType) (h : InLine behind para) :
    Safe behind (otaHandler.run typecfg (atEqu :: para)) ↔
      (textOf para).length < atParaMaxSize := by
  have hlist : otaHandler = .table [text 200 (aetBoth ||| sizeLimit 200)] := rfl
  have hboth : BothEnds (aetBoth ||| sizeLimit 200) := ⟨by decide, by decide⟩
  have hiff := getTextPara_safe_iff 200 hboth (by decide) h (by decide)
  rw [hlist, Handler.run_equ _ _ (List.cons_ne_nil _ _)]
  constructor
  · exact fun hs => (hiff.mp (safe_getPara hs)).1
  · intro hlt
    have h200 : atParaMaxSize < 200 := by decide
    have hsafe : Safe behind (getPara (text 200 (aetBoth ||| sizeLimit 200)) para).log :=
      hiff.mpr ⟨hlt, by omega⟩
    unfold paraLoop
    dsimp only
    split_ifs
    · exact hsafe
    · exact hsafe
    · simpa [paraLoop] using hsafe

theorem setMacHandler_safe_iff (typecfg : List UInt8 → Option ParaType) (h : InLine behind para) :
    Safe behind (setMacHandler.run typecfg (atEqu :: para)) ↔ ¬Skips 5 behind para := by
  have hlist : setMacHandler = .table (List.replicate (5 + 1) macByte) := rfl
  rw [hlist, Handler.run_equ _ _ (by simp)]
  exact macBytes_safe_iff 5 para h

/-- A handler from the end of the name on. -/
theorem Handler.run_safe_iff (typecfg : List UInt8 → Option ParaType) {handler : Handler}
    (hmem : ∃ entry ∈ atCommandTable, entry.2 = handler) (h : InLine behind (b :: rest)) :
    Safe behind (handler.run typecfg (b :: rest)) ↔
      (b = atEqu → handler.ArgumentFits behind rest) := by
  obtain ⟨entry, hentry, rfl⟩ := hmem
  rcases atCommandTable_fits entry hentry with hf | hthree
  · refine iff_of_true (Handler.run_safe typecfg hf h) fun _ => ?_
    constructor
    · exact fun he => absurd hf (by simp [Handler.not_fits _ (.inl he)])
    · exact fun he => absurd hf (by simp [Handler.not_fits _ (.inr (.inl he))])
    · exact fun he => absurd hf (by simp [Handler.not_fits _ (.inr (.inr he))])
  by_cases hb : b = atEqu
  · subst hb
    have harg : InLine behind rest := h.tail (by decide) (by decide)
    rw [forall_prop_of_true rfl]
    rcases hthree with he | he | he <;> rw [he]
    · rw [otaHandler_safe_iff typecfg harg]
      exact ⟨fun hlt => ⟨fun _ => hlt, nofun, nofun⟩, fun hfits => hfits.ota rfl⟩
    · rw [setMacHandler_safe_iff typecfg harg]
      exact ⟨fun hs => ⟨nofun, fun _ => hs, nofun⟩, fun hfits => hfits.mac rfl⟩
    · rw [createTcpUdp_safe_iff typecfg harg]
      exact ⟨fun hc => ⟨nofun, nofun, fun _ => hc⟩, fun hfits => hfits.connect rfl⟩
  · rw [Handler.run_of_ne hb hthree]
    exact iff_of_true .nil fun he => absurd he hb

/-! ## The line -/

/-- A line as the parser hands it over: with its terminator, or the one that it makes up for the
payload of `AT+CIPSEND`. -/
def Dispatched (line : List UInt8) : Prop :=
  InLine [] line ∨ line = bytesOf "AT+CIPSEND=0,1,u" ++ [0]

/-- The lines that are parsed inside their buffers: the argument of the command fits. -/
def LineFits (line : List UInt8) : Prop :=
  ∀ (cmd para : List UInt8) (handler : Handler), line = cmd ++ atEqu :: para →
    (∀ b ∈ cmd, isStop b = false) → cmd.length ≤ atCmdMaxSize → atMatch cmd = some handler →
      handler.ArgumentFits [] para

theorem InLine.append (h : InLine [] para) (behind : List UInt8) :
    InLine behind (para ++ behind) := by
  induction h with
  | lf => exact .lf
  | cr next => exact .cr next
  | cons hcr hlf _ ih => exact .cons hcr hlf ih

theorem cmdName_some (cmd rest : List UInt8) (hcmd : ∀ b ∈ cmd, isStop b = false)
    (hb : isStop b = true) : ∀ (size : Nat) (atCmd : List UInt8), cmd.length < size →
      (atCmd ++ cmd).length ≤ atCmdMaxSize →
        cmdName size (cmd ++ b :: rest) atCmd = some (atCmd ++ cmd, b :: rest) := by
  induction cmd with
  | nil =>
    intro size atCmd hsize _
    cases size with
    | zero => simp at hsize
    | succ size => simp [cmdName, hb]
  | cons x cmd ih =>
    intro size atCmd hsize hlen
    cases size with
    | zero => simp at hsize
    | succ size =>
      have hx : isStop x = false := hcmd x (by simp)
      simp only [List.length_append, List.length_cons] at hlen hsize
      have hlt : atCmd.length < atCmdMaxSize := by omega
      have hih := ih (fun y hy => hcmd y (by simp [hy])) size (atCmd ++ [x]) (by omega)
        (by simp; omega)
      simpa [cmdName, hx, hlt] using hih

/-- The name ends in the line, or is too long. -/
theorem cmdName_inLine (para : List UInt8) (h : InLine behind para) :
    ∀ (size : Nat) (atCmd : List UInt8), para.length ≤ size + behind.length →
      cmdName size para atCmd = none ∨ ∃ cmd b rest, para = cmd ++ b :: rest ∧
        (∀ b ∈ cmd, isStop b = false) ∧ isStop b = true ∧ InLine behind (b :: rest) ∧
          (atCmd.length ≤ atCmdMaxSize → (atCmd ++ cmd).length ≤ atCmdMaxSize) ∧
            cmdName size para atCmd = some (atCmd ++ cmd, b :: rest) := by
  induction para with
  | nil => exact absurd h not_inLine_nil
  | cons b para ih =>
    intro size atCmd hsize
    cases size with
    | zero =>
      have := h.inside
      omega
    | succ size =>
      cases hb : isStop b with
      | true => exact .inr ⟨[], b, para, rfl, by simp, hb, h, by simp, by simp [cmdName, hb]⟩
      | false =>
        by_cases hlt : atCmd.length < atCmdMaxSize
        · have hne : b ≠ atCr ∧ b ≠ atLf := by
            constructor <;> rintro rfl <;> simp [isStop] at hb
          rcases ih (h.tail hne.1 hne.2) size (atCmd ++ [b]) (by simp at hsize; omega) with
            hnone | ⟨cmd, b', rest, rfl, hcmd, hb', hin, hlen, hsome⟩
          · exact .inl (by simpa [cmdName, hb, hlt] using hnone)
          · refine .inr ⟨b :: cmd, b', rest, rfl, by simpa [hb] using hcmd, hb', hin, fun _ => ?_, ?_⟩
            · simpa using hlen (by simpa using hlt)
            · simpa [cmdName, hb, hlt] using hsome
        · exact .inl (by simp [cmdName, hb, hlt])

/-! ### What is behind the line does not matter -/

theorem textOf_append (h : InLine [] para) (behind : List UInt8) :
    textOf (para ++ behind) = textOf para ∧ endOf (para ++ behind) = endOf para ++ behind ∧
      endOf para ≠ [] := by
  obtain ⟨u, b, rest, e, rfl, hu, he, -⟩ := h.field
  have hb := isEnd_of_paraEnd he
  rw [List.append_assoc, List.cons_append, textOf_field hu hb, textOf_field hu hb,
    endOf_field hu hb, endOf_field hu hb]
  exact ⟨rfl, rfl, List.cons_ne_nil _ _⟩

theorem skips_append {n : Nat} (behind para : List UInt8) :
    Skips n behind (para ++ behind) ↔ Skips n [] para := by
  constructor
  · rintro ⟨gs, next, hne, hlen, hgs, heq, rfl | ⟨x, rfl, hx⟩⟩
    · exact ⟨gs, [], hne, hlen, hgs, by simpa using heq, .inl rfl⟩
    · refine ⟨gs, [x], hne, hlen, hgs, ?_, .inr ⟨x, rfl, hx⟩⟩
      rw [List.append_cons] at heq
      exact List.append_cancel_right heq
  · rintro ⟨gs, next, hne, hlen, hgs, rfl, rfl | ⟨x, rfl, hx⟩⟩
    · exact ⟨gs, behind, hne, hlen, hgs, by simp, .inl rfl⟩
    · exact ⟨gs, x :: behind, hne, hlen, hgs, by simp, .inr ⟨x, rfl, hx⟩⟩

/-- The number and its separator are in the line. -/
theorem number_append {f next : List UInt8} (h : InLine [] para) (hf : IsNumber f)
    (heq : para ++ behind = f ++ atSeparator :: next) :
    ∃ host, para = f ++ atSeparator :: host ∧ next = host ++ behind ∧ InLine [] host := by
  have hfe : ∀ x ∈ f, isEnd x = false := fun x hx => (not_isEnd_of_isDec (hf.2.2 x hx)).1
  obtain ⟨u, b, rest, e, rfl, hu, he, -⟩ := h.field
  have hb := isEnd_of_paraEnd he
  have htake := congrArg (List.takeWhile (!isEnd ·)) heq
  have hdrop := congrArg endOf heq
  rw [List.append_assoc, List.cons_append] at htake hdrop
  rw [List.takeWhile_append_of_pos (by simpa using hu),
    List.takeWhile_append_of_pos (by simpa using hfe)] at htake
  rw [endOf_field hu hb, endOf_field hfe (by decide)] at hdrop
  obtain ⟨rfl, rfl⟩ := List.cons.inj hdrop
  obtain rfl : u = f := by simpa [hb] using htake
  exact ⟨rest, rfl, rfl, (h.drop hu).tail (by decide) (by decide)⟩

theorem connectFits_append (h : InLine [] para) (behind : List UInt8) :
    ConnectFits behind (para ++ behind) ↔ ConnectFits [] para := by
  -- what one link, type and host name ask for is the same with and without the rest of the buffer
  have hlink : ∀ host : List UInt8, InLine [] host →
      ((∃ name, endOf (host ++ behind) = atSeparator :: name ∧
          (textOf name).length < atParaMaxSize) ∨
            endOf (host ++ behind) = atCr :: atSeparator :: behind ↔
        (∃ name, endOf host = atSeparator :: name ∧ (textOf name).length < atParaMaxSize) ∨
          endOf host = [atCr, atSeparator]) := by
    intro host hhost
    obtain ⟨-, hend, hne⟩ := textOf_append hhost behind
    obtain ⟨u, b, rest, e, rfl, hu, he, -⟩ := hhost.field
    rw [hend, endOf_field hu (isEnd_of_paraEnd he)]
    have hcr : b :: rest ++ behind = atCr :: atSeparator :: behind ↔
        b :: rest = [atCr, atSeparator] := by
      constructor
      · intro heq
        exact List.append_cancel_right (heq.trans rfl)
      · exact fun heq => by rw [heq]; rfl
    rw [hcr]
    refine or_congr_left ?_
    have hin := hhost.drop hu
    constructor
    · rintro ⟨name, heq, hlt⟩
      obtain ⟨rfl, rfl⟩ := List.cons.inj heq
      have hrest := hin.tail (by decide) (by decide)
      have hlt : (textOf (rest ++ behind)).length < atParaMaxSize := hlt
      exact ⟨rest, rfl, by rwa [(textOf_append hrest behind).1] at hlt⟩
    · rintro ⟨name, heq, hlt⟩
      obtain ⟨rfl, rfl⟩ := List.cons.inj heq
      have hrest := hin.tail (by decide) (by decide)
      exact ⟨rest ++ behind, rfl, by rwa [(textOf_append hrest behind).1]⟩
  constructor
  · intro hc f host heq hf
    have hhost : InLine [] host := by
      have hnil : para ++ [] = f ++ atSeparator :: host := by simpa using heq
      obtain ⟨host', hpara, -, hin⟩ := number_append h hf hnil
      rw [heq] at hpara
      obtain rfl := (List.cons.inj (List.append_cancel_left hpara)).2
      exact hin
    have hfits := hc f (host ++ behind) (by simp [heq]) hf
    rw [(textOf_append hhost behind).1] at hfits
    exact ⟨hfits.1, fun hle ht => (hlink host hhost).mp (hfits.2 hle ht)⟩
  · intro hc f next heq hf
    obtain ⟨host, hpara, rfl, hhost⟩ := number_append h hf heq
    have hfits := hc f host hpara hf
    rw [(textOf_append hhost behind).1]
    exact ⟨hfits.1, fun hle ht => (hlink host hhost).mpr (hfits.2 hle ht)⟩

theorem Handler.argumentFits_append {handler : Handler} (h : InLine [] para)
    (behind : List UInt8) :
    handler.ArgumentFits behind (para ++ behind) ↔ handler.ArgumentFits [] para := by
  constructor
  · rintro ⟨ho, hm, hc⟩
    exact ⟨fun he => (textOf_append h behind).1 ▸ ho he,
      fun he => (skips_append behind para).not.mp (hm he),
      fun he => (connectFits_append h behind).mp (hc he)⟩
  · rintro ⟨ho, hm, hc⟩
    exact ⟨fun he => (textOf_append h behind).1.symm ▸ ho he,
      fun he => (skips_append behind para).not.mpr (hm he),
      fun he => (connectFits_append h behind).mpr (hc he)⟩

theorem atMatch_mem {cmd : List UInt8} {handler : Handler} (h : atMatch cmd = some handler) :
    ∃ entry ∈ atCommandTable, entry.2 = handler := by
  unfold atMatch at h
  obtain ⟨entry, hentry, rfl⟩ := Option.map_eq_some_iff.mp h
  exact ⟨entry, List.mem_of_find?_eq_some hentry, rfl⟩

theorem atMatch_nil : atMatch [] = none := by decide

/-- A digit in front of a separator, whatever follows. -/
theorem getPara_digit (behind : List UInt8) {opt : Nat} (hends : aetPara &&& opt ≠ 0) {d : UInt8}
    (hd : isDec d = true) {rest : List UInt8} (hlen : behind.length ≤ rest.length) :
    let g := getPara (di opt) (d :: atSeparator :: rest)
    g.error = false ∧ g.overFlag = false ∧ g.para = rest ∧ Safe behind g.log := by
  have hg : getPara (di opt) (d :: atSeparator :: rest) =
      getDiPara 4 opt (d :: atSeparator :: rest) := rfl
  have hone : ([] ++ [d] : List UInt8).length < intLimit := Nat.one_lt_succ_succ 9
  rw [hg, getDiPara, diLoop_digit hd (by decide), diLoop_separator hone]
  simp [Scan.ended, Scan.got, hends, intLimit, atParaMaxSize]
  omega

set_option maxRecDepth 8000 in
/-- The line that the parser makes up for a payload has no terminator, and its two numbers stand in
front of separators. -/
theorem cipsend_safe (typecfg : List UInt8 → Option ParaType) (behind : List UInt8) {size : Nat}
    (hsize : 17 ≤ size) :
    Safe behind (atParseCmd typecfg (bytesOf "AT+CIPSEND=0,1,u" ++ [0] ++ behind) size) := by
  have hline : bytesOf "AT+CIPSEND=0,1,u" ++ [0] ++ behind = bytesOf "AT+CIPSEND" ++ atEqu ::
      (0x30 :: atSeparator :: 0x31 :: atSeparator :: 0x75 :: 0 :: behind) := rfl
  have hname := cmdName_some (bytesOf "AT+CIPSEND")
    (0x30 :: atSeparator :: 0x31 :: atSeparator :: 0x75 :: 0 :: behind) (by decide)
    (show isStop atEqu = true by decide) size [] (Nat.lt_of_lt_of_le (by decide) hsize) (by decide)
  have hmatch : atMatch (bytesOf "AT+CIPSEND") = some sendDataHandler := by decide
  have hlist : sendDataHandler = .table (List.replicate 2 (di (aetBoth ||| sizeLimit 12))) := rfl
  have hends : aetPara &&& (aetBoth ||| sizeLimit 12) ≠ 0 := by decide
  rw [hline, atParseCmd, hname]
  simp only [List.nil_append, hmatch]
  rw [if_neg (by decide), hlist, Handler.run_equ _ _ (by simp)]
  obtain ⟨he, ho, hp, hs⟩ := getPara_digit behind hends
    (show isDec 0x30 = true by decide)
    (show behind.length ≤ (0x31 :: atSeparator :: 0x75 :: 0 :: behind).length by simp; omega)
  obtain ⟨he', ho', -, hs'⟩ := getPara_digit behind hends
    (show isDec 0x31 = true by decide)
    (show behind.length ≤ (0x75 :: 0 :: behind).length by simp; omega)
  simp only [List.replicate_succ, List.replicate_zero, paraLoop, he, ho, hp, he', ho']
  simp [hs, hs']

set_option maxRecDepth 8000 in
theorem cipsend_fits : LineFits (bytesOf "AT+CIPSEND=0,1,u" ++ [0]) := by
  intro cmd para handler heq hcmd hmax hmatch
  have hname := cmdName_some (bytesOf "AT+CIPSEND")
    (0x30 :: atSeparator :: 0x31 :: atSeparator :: 0x75 :: 0 :: []) (by decide)
    (show isStop atEqu = true by decide) 17 [] (by decide) (by decide)
  have hlen : cmd.length < 17 := by
    have := congrArg List.length heq
    simp only [List.length_append, List.length_cons] at this
    have h17 : (bytesOf "AT+CIPSEND=0,1,u").length = 16 := by decide
    simp only [List.length_nil] at this
    omega
  have hname' := cmdName_some cmd para hcmd (show isStop atEqu = true by decide) 17 [] hlen hmax
  have hline : bytesOf "AT+CIPSEND" ++ atEqu ::
      (0x30 :: atSeparator :: 0x31 :: atSeparator :: 0x75 :: 0 :: []) = cmd ++ atEqu :: para := heq
  rw [hline, hname'] at hname
  obtain ⟨rfl, -⟩ := Prod.mk.inj (Option.some.inj hname)
  have hsend : atMatch (bytesOf "AT+CIPSEND") = some sendDataHandler := by decide
  obtain rfl : sendDataHandler = handler := Option.some.inj (hsend.symm.trans hmatch)
  exact ⟨nofun, nofun, nofun⟩

theorem InLine.split (h : InLine behind para) : ∃ s, para = s ++ behind ∧ InLine [] s := by
  induction h with
  | lf => exact ⟨[atLf], rfl, .lf⟩
  | cr next => exact ⟨[atCr, next], rfl, .cr next⟩
  | @cons b _ hcr hlf _ ih =>
    obtain ⟨s, rfl, hs⟩ := ih
    exact ⟨b :: s, rfl, .cons hcr hlf hs⟩

section
variable {line : List UInt8} {size : Nat}

/-- A name in front of `=` is the one that the parser finds. -/
theorem cmdName_argument {cmd para : List UInt8} (behind : List UInt8)
    (hsize : line.length ≤ size) (heq : line = cmd ++ atEqu :: para)
    (hcmd : ∀ b ∈ cmd, isStop b = false) (hmax : cmd.length ≤ atCmdMaxSize) :
    cmdName size (line ++ behind) [] = some (cmd, atEqu :: (para ++ behind)) := by
  subst heq
  have hlt : cmd.length < size := by
    simp only [List.length_append, List.length_cons] at hsize
    omega
  simpa using cmdName_some cmd (para ++ behind) hcmd (show isStop atEqu = true by decide) size [] hlt
    hmax

/-- What a line asks for, from its name on. -/
theorem lineFits_iff {cmd : List UInt8} (hsize : line.length ≤ size)
    (hsplit : line ++ behind = cmd ++ b :: rest) (hcmd : ∀ b ∈ cmd, isStop b = false)
    (hrest : InLine behind (b :: rest)) (hmax : cmd.length ≤ atCmdMaxSize)
    (hsome : cmdName size (line ++ behind) [] = some (cmd, b :: rest)) :
    LineFits line ↔ ∀ handler, atMatch cmd = some handler → b = atEqu →
      handler.ArgumentFits behind rest := by
  constructor
  · rintro hl handler hmatch rfl
    obtain ⟨para, rfl, hpara⟩ := (hrest.tail (by decide) (by decide)).split
    rw [← List.cons_append, ← List.append_assoc] at hsplit
    exact (Handler.argumentFits_append hpara behind).mpr
      (hl cmd para handler (List.append_cancel_right hsplit) hcmd hmax hmatch)
  · intro hr cmd' para handler heq hcmd' hmax' hmatch
    have hsame := cmdName_argument behind hsize heq hcmd' hmax'
    rw [hsome] at hsame
    obtain ⟨rfl, hrest'⟩ := Prod.mk.inj (Option.some.inj hsame)
    obtain ⟨rfl, rfl⟩ := List.cons.inj hrest'
    obtain ⟨para', hpara', hin⟩ := (hrest.tail (by decide) (by decide)).split
    obtain rfl := List.append_cancel_right hpara'
    exact (Handler.argumentFits_append hin behind).mp (hr handler hmatch rfl)

end

/-- The parameters of a line are parsed inside `strbuf`, the destination fields and the line,
exactly when the line fits. -/
theorem parameters_in_bounds (typecfg : List UInt8 → Option ParaType)
    (line behind : List UInt8) (size : Nat) (hline : Dispatched line) (hsize : line.length ≤ size) :
    Safe behind (atParseCmd typecfg (line ++ behind) size) ↔ LineFits line := by
  rcases hline with hin | rfl
  · have hlen : (line ++ behind).length ≤ size + behind.length := by simp; omega
    rcases cmdName_inLine _ (hin.append behind) size [] hlen with
      hnone | ⟨cmd, b, rest, hsplit, hcmd, -, hrest, hmax, hsome⟩
    · -- the name is too long
      rw [atParseCmd, hnone]
      refine iff_of_true .nil fun cmd para handler heq hcmd hmax _ => ?_
      simp [cmdName_argument behind hsize heq hcmd hmax] at hnone
    · rw [List.nil_append] at hsome hmax
      rw [lineFits_iff hsize hsplit hcmd hrest (hmax (Nat.zero_le _)) hsome, atParseCmd, hsome]
      dsimp only
      by_cases hempty : cmd = []
      · rw [if_pos hempty]
        refine iff_of_true .nil fun handler hmatch => ?_
        simp [hempty, atMatch_nil] at hmatch
      rw [if_neg hempty]
      cases hmatch : atMatch cmd with
      | none => exact iff_of_true .nil nofun
      | some handler =>
        rw [Handler.run_safe_iff typecfg (atMatch_mem hmatch) hrest]
        constructor
        · rintro hfits handler' heq hb
          cases heq
          exact hfits hb
        · exact fun hall hb => hall handler rfl hb
  · exact iff_of_true (cipsend_safe typecfg behind (Nat.le_trans (by decide) hsize)) cipsend_fits

theorem InLine.prepend {u : List UInt8} (hu : ∀ b ∈ u, b ≠ atCr ∧ b ≠ atLf)
    (h : InLine behind para) : InLine behind (u ++ para) := by
  induction u with
  | nil => exact h
  | cons b u ih =>
    obtain ⟨hb, hu⟩ := List.forall_mem_cons.mp hu
    exact .cons hb.1 hb.2 (ih hu)

theorem dispatched_lf {u : List UInt8} (hu : ∀ b ∈ u, b ≠ atCr ∧ b ≠ atLf) :
    Dispatched (u ++ [atLf]) := .inl (InLine.prepend hu .lf)

set_option maxRecDepth 8000 in
/-- `AT+CIPSTART` with a short host name. -/
theorem parameters_in_bounds_connect :
    Safe [] (atParseCmd (fun _ => none) (bytesOf "AT+CIPSTART=0,TCP,host,80" ++ [atLf] ++ []) 27) ↔
      LineFits (bytesOf "AT+CIPSTART=0,TCP,host,80" ++ [atLf]) :=
  parameters_in_bounds (fun _ => none) (bytesOf "AT+CIPSTART=0,TCP,host,80" ++ [atLf]) [] 27
    (dispatched_lf (by decide)) (by decide)

set_option maxRecDepth 8000 in
/-- A host name of 64 bytes: its end is stored behind `strbuf`. -/
theorem host_name_overruns : ¬∀ (typecfg : List UInt8 → Option ParaType)
    (line behind : List UInt8) (size : Nat), Dispatched line → line.length ≤ size →
      Safe behind (atParseCmd typecfg (line ++ behind) size) := by
  intro h
  have hsafe := h (fun _ => none) (bytesOf "AT+CIPSTART=0,TCP," ++ List.replicate 64 0x61 ++ [atLf]) []
    83 (dispatched_lf (by decide)) (by decide)
  exact absurd hsafe (by decide)

end AtCmd
end XR806
