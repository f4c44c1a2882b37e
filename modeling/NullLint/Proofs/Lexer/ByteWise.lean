import NullLint.Proofs.Lexer.Encoding

/-!
# Lexing byte by byte

A lexer that walks over the bytes of a text looks at single bytes wherever only ASCII matters, steps
over whole characters elsewhere, and cuts the text at its offsets. A cut within a character gives
nothing, and neither does a step that stays in place. On the bytes of a text this never happens, and
the tokens are those found among the characters.
-/

namespace NullLint.Lexer

/-! ## The lexer on bytes -/

/-- Number of bytes in the word ahead. -/
def wordBytes? (bs : List UInt8) : Option Nat :=
  match bs with
  | [] => some 0
  | b :: tail =>
    match charAhead? (b :: tail) with
    | none => none
    | some c =>
      if isWordPart c then (wordBytes? ((b :: tail).drop c.utf8Size)).map (c.utf8Size + ·)
      else some 0
termination_by bs.length
decreasing_by
  have hpos := c.utf8Size_pos
  simp only [List.length_drop, List.length_cons]
  omega

/-- Number of bytes behind an opening quote that belong to the literal, and whether it is closed.
Quotes, backslashes and line breaks are looked for among the bytes; all else is passed over
character by character. -/
def quotedBytes? (quote : Char) (verbatim : Bool) (bs : List UInt8) : Option (Nat × Bool) :=
  match bs with
  | [] => some (0, false)
  | b :: tail =>
    let here := Char.ofUInt8 b
    if !verbatim && here == '\\' then
      match tail with
      | [] => some (1, false)
      | d :: rest =>
        if isLineBreak (Char.ofUInt8 d) then some (1, false)
        else
          match charAhead? (d :: rest) with
          | none => none
          | some c => (quotedBytes? quote verbatim ((d :: rest).drop c.utf8Size)).map fun r =>
              (1 + c.utf8Size + r.1, r.2)
    else if !verbatim && isLineBreak here then some (0, false)
    else if here == quote then
      if verbatim && (glance tail).head? == some quote then
        (quotedBytes? quote verbatim (tail.drop 1)).map fun r => (2 + r.1, r.2)
      else some (1, true)
    else
      match charAhead? (b :: tail) with
      | none => none
      | some c => (quotedBytes? quote verbatim ((b :: tail).drop c.utf8Size)).map fun r =>
          (c.utf8Size + r.1, r.2)
termination_by bs.length
decreasing_by
  all_goals simp only [List.length_drop, List.length_cons]
  all_goals try have hpos := c.utf8Size_pos
  all_goals omega

/-- The word ahead: reserved, or an identifier. -/
def keywordBytes? (bs : List UInt8) : Option (Kind × Nat) :=
  (wordBytes? bs).bind fun n =>
    (cut? bs n).map fun word => ((Kind.ofKeyword? word).getD .identifier, n)

/-- The literal ahead whose quote comes after `before` bytes. -/
def literalBytes? (kind : Kind) (quote : Char) (verbatim : Bool) (before : Nat)
    (bs : List UInt8) : Option (Kind × Nat) :=
  (quotedBytes? quote verbatim (bs.drop (before + 1))).map fun r => (kind, before + 1 + r.1)

/-- The kind of the token that starts with the character `c`, and its number of bytes. -/
def tokenBytes? (c : Char) (bs : List UInt8) : Option (Kind × Nat) :=
  let next := glance (bs.drop 1)
  if isWordStart c then keywordBytes? bs
  else if c.isDigit || (c == '.' && next.head?.any Char.isDigit) then
    some (.numericLiteral, numberLength (glance bs))
  else if c == '"' then literalBytes? .stringLiteral '"' false 0 bs
  else if c == '\'' then literalBytes? .characterLiteral '\'' false 0 bs
  else if c == '@' && next.head? == some '"' then literalBytes? .stringLiteral '"' true 1 bs
  else if c == '$' && next.head? == some '"' then literalBytes? .stringLiteral '"' false 1 bs
  else if c == '$' && (next.head? == some '@' && (next.drop 1).head? == some '"') then
    literalBytes? .stringLiteral '"' true 2 bs
  else if c == '@' && next.head?.any (fun d => d.isAlpha || d == '_') then
    (wordBytes? (bs.drop 1)).map fun n => (.identifier, 1 + n)
  else
    match mark? c next.head? with
    | some (kind, more) => some (kind, more + 1)
    | none => some (.unknown, c.utf8Size)

/-- The trivia ahead and the bytes behind them. -/
def triviaBytes? (trailing lineStart : Bool) (bs : List UInt8) :
    Option (List Trivia × List UInt8) :=
  match bs with
  | [] => some ([], [])
  | b :: tail =>
    match triviaShape? (lineStart && !trailing) (Char.ofUInt8 b) (glance tail) with
    | none => some ([], b :: tail)
    | some shape =>
      match cut? (b :: tail) (shape.more + 1) with
      | none => none
      | some text =>
        if trailing && shape.kind == .endOfLine then
          some ([⟨shape.kind, text⟩], tail.drop shape.more)
        else
          (triviaBytes? trailing (keepsLineStart lineStart shape.kind text.toList)
            (tail.drop shape.more)).map fun r => (⟨shape.kind, text⟩ :: r.1, r.2)
termination_by bs.length
decreasing_by simp only [List.length_drop, List.length_cons]; omega

/-- The tokens of a text that is given as bytes. -/
def lexBytes? (lineStart : Bool) (bs : List UInt8) : Option (List Token) :=
  match triviaBytes? false lineStart bs with
  | none => none
  | some (leading, []) => some [⟨.endOfFile, "", leading, [], false⟩]
  | some (leading, ahead) =>
    match (charAhead? ahead).bind (tokenBytes? · ahead) with
    | none => none
    | some (kind, n) =>
      match cut? ahead n, triviaBytes? true false (ahead.drop n) with
      | some text, some (trailing, rest) =>
        if _h : rest.length < bs.length then
          (lexBytes? (endsLine trailing) rest).map (⟨kind, text, leading, trailing, false⟩ :: ·)
        else none
      | _, _ => none
termination_by bs.length

/-! ## Tests on bytes -/

theorem Uniform.or {p q : Char → Bool} (hp : Uniform p false) (hq : Uniform q false) :
    Uniform (fun c => p c || q c) false :=
  fun c hc => by simp [hp c hc, hq c hc]

theorem Uniform.not {p : Char → Bool} {v : Bool} (hp : Uniform p v) :
    Uniform (fun c => !p c) !v :=
  fun c hc => by simp [hp c hc]

theorem uniform_isLineBreak : Uniform isLineBreak false :=
  (uniform_beq (by decide)).or (uniform_beq (by decide))

theorem uniform_isSpace : Uniform isSpace false :=
  (((uniform_beq (by decide)).or (uniform_beq (by decide))).or (uniform_beq (by decide))).or
    (uniform_beq (by decide))

theorem OnlyGraphic.or {p q : Char → Bool} (hp : OnlyGraphic p) (hq : OnlyGraphic q) :
    OnlyGraphic fun c => p c || q c :=
  fun c hc => ((Bool.or_eq_true _ _).mp hc).elim (hp c) (hq c)

theorem onlyGraphic_beq {a : Char} (ha : Graphic a) : OnlyGraphic (· == a) :=
  fun _ hc => eq_of_beq hc ▸ ha

theorem onlyGraphic_isDigit : OnlyGraphic Char.isDigit := by
  intro c hc
  have hdigit : 48 ≤ c.toNat ∧ c.toNat ≤ 57 := by
    simpa [Char.isDigit, UInt32.le_iff_toNat_le] using hc
  omega

theorem onlyGraphic_isAlpha : OnlyGraphic Char.isAlpha := by
  intro c hc
  obtain hupper | hlower := (Bool.or_eq_true c.isUpper c.isLower).mp hc
  · obtain ⟨hlow, hhigh⟩ := of_decide_eq_true hupper
    have hlow : 65 ≤ c.toNat := UInt32.le_iff_toNat_le.1 hlow
    have hhigh : c.toNat ≤ 90 := UInt32.le_iff_toNat_le.1 hhigh
    omega
  · obtain ⟨hlow, hhigh⟩ := (Bool.and_eq_true _ _).mp hlower
    have hlow : 97 ≤ c.toNat := UInt32.le_iff_toNat_le.1 (of_decide_eq_true hlow)
    have hhigh : c.toNat ≤ 122 := UInt32.le_iff_toNat_le.1 (of_decide_eq_true hhigh)
    omega

theorem onlyGraphic_isHexDigit : OnlyGraphic isHexDigit := by
  intro c hc
  obtain (hdigit | hlower) | hupper : (c.isDigit = true ∨ 97 ≤ c.toNat ∧ c.toNat ≤ 102) ∨
      65 ≤ c.toNat ∧ c.toNat ≤ 70 := by
    simpa [isHexDigit, Char.le_def, UInt32.le_iff_toNat_le] using hc
  · exact onlyGraphic_isDigit c hdigit
  · omega
  · omega

section Heads

variable {p : Char → Bool} {c : Char} {cs : List Char} {b : UInt8} {tail : List UInt8}

theorem exists_encode_cons (c : Char) (cs : List Char) :
    ∃ b tail, encode (c :: cs) = b :: tail := by
  refine List.exists_cons_of_ne_nil fun hnil => ?_
  have hlength := congrArg List.length hnil
  have hpos := c.utf8Size_pos
  rw [length_encode, Text.byteLength_cons, List.length_nil] at hlength
  omega

/-- The first byte of a character passes just if the character does. -/
theorem Uniform.byte (hp : Uniform p false) (h : encode (c :: cs) = b :: tail) :
    p (Char.ofUInt8 b) = p c := by
  have hany := hp.any_head?_seen (c :: cs)
  rwa [seen, glance, h] at hany

theorem eq_of_ascii (hc : c.toNat < 0x80) (h : encode (c :: cs) = b :: tail) :
    Char.ofUInt8 b = c ∧ tail = encode cs := by
  rw [encode_cons, utf8EncodeChar_of_ascii hc] at h
  obtain ⟨rfl, rfl⟩ := List.cons.inj h
  exact ⟨ofUInt8_ofNat_of_ascii hc, rfl⟩

theorem not_ascii_of_byte (hc : 0x80 ≤ c.toNat) (h : encode (c :: cs) = b :: tail) :
    0x80 ≤ (Char.ofUInt8 b).toNat := by
  obtain ⟨d, ds, hseen, hall, -⟩ := seen_cons_of_not_ascii hc cs
  rw [seen, glance, h, List.map_cons] at hseen
  rw [(List.cons.inj hseen).1]
  exact hall d (by simp)

theorem drop_encode_cons (c : Char) (cs : List Char) :
    (encode (c :: cs)).drop c.utf8Size = encode cs := by
  rw [encode_cons, ← String.length_utf8EncodeChar, List.drop_left]

theorem plain_one {cs : List Char} (hp : OnlyGraphic p) (h : cs.head?.any p = true) :
    Plain 1 cs := by
  cases cs with
  | nil => cases h
  | cons c cs => exact (plain_zero cs).cons (hp c h)

theorem plain_two {a a' : Char} (ha : Graphic a) (ha' : Graphic a')
    (h : (c == a && cs.head? == some a') = true) : Plain 2 (c :: cs) := by
  obtain ⟨rfl, hhead⟩ : c = a ∧ cs.head? = some a' := by simpa using h
  obtain ⟨rest, rfl⟩ := List.head?_eq_some_iff.1 hhead
  exact ((plain_zero rest).cons ha').cons ha

theorem plain_three {a a' a'' : Char} (ha : Graphic a) (ha' : Graphic a') (ha'' : Graphic a'')
    (h : (c == a && (cs.head? == some a' && (cs.drop 1).head? == some a'')) = true) :
    Plain 3 (c :: cs) := by
  obtain ⟨rfl, hhead, hsecond⟩ : c = a ∧ cs.head? = some a' ∧ (cs.drop 1).head? = some a'' := by
    simpa using h
  obtain ⟨rest, rfl⟩ := List.head?_eq_some_iff.1 hhead
  obtain ⟨rest, rfl⟩ := List.head?_eq_some_iff.1 hsecond
  exact (((plain_zero rest).cons ha'').cons ha').cons ha

end Heads

/-! ## Words and numbers -/

theorem wordBytes?_encode (cs : List Char) :
    wordBytes? (encode cs) = some (Text.byteLength (cs.takeWhile isWordPart)) := by
  induction cs with
  | nil => simp [wordBytes?]
  | cons c cs ih =>
    obtain ⟨b, tail, h⟩ := exists_encode_cons c cs
    rw [h, wordBytes?, ← h, charAhead?_encode]
    simp only [drop_encode_cons, ih]
    cases hc : isWordPart c with
    | false => simp [hc]
    | true => simp [hc]

theorem reads_digitRun : Reads digitRun :=
  .takeWhile (onlyGraphic_isDigit.or (onlyGraphic_beq (by decide)))

theorem fractionLength_eq (cs : List Char) : fractionLength cs =
    if cs.head?.any (· == '.') && (cs.drop 1).head?.any Char.isDigit then 1 + digitRun (cs.drop 1)
    else 0 := by
  rcases cs with _ | ⟨c, _ | ⟨d, cs⟩⟩
  · rfl
  · simp [fractionLength]
  · by_cases hc : c = '.'
    · subst hc
      rfl
    · simp [fractionLength, hc]

/-- A length that is counted in one way where a test succeeds, and in another elsewhere. -/
theorem Reads.choose {t : List Char → Bool} {r r' : List Char → Nat}
    (ht : ∀ cs, t (seen cs) = t cs) (hr : ∀ cs, t cs = true → r (seen cs) = r cs ∧ Plain (r cs) cs)
    (hr' : Reads r') : Reads fun cs => if t cs then r cs else r' cs := by
  refine ⟨fun cs => ?_, fun cs => ?_⟩
  · simp only [ht]
    split
    · exact (hr cs ‹_›).1
    · exact hr'.seen_eq cs
  · split
    · exact (hr cs ‹_›).2
    · exact hr'.plain cs

theorem reads_zero : Reads fun _ => 0 := ⟨fun _ => rfl, plain_zero⟩

theorem reads_fractionLength : Reads fractionLength := by
  have hdot : OnlyGraphic (· == '.') := onlyGraphic_beq (by decide)
  rw [funext fractionLength_eq]
  refine .choose (fun cs => ?_) (fun cs ht => ?_) reads_zero
  · rw [hdot.uniform.any_head?_seen]
    cases hhead : cs.head?.any (· == '.') with
    | false => rfl
    | true => rw [(plain_one hdot hhead).drop_seen, onlyGraphic_isDigit.uniform.any_head?_seen]
  · rw [Bool.and_eq_true] at ht
    have hone := plain_one hdot ht.1
    rw [hone.drop_seen, reads_digitRun.seen_eq]
    exact ⟨rfl, hone.add (reads_digitRun.plain _)⟩

/-- Length of a sign, if one is ahead. -/
def signLength (cs : List Char) : Nat :=
  if cs.head?.any (fun c => c == '+' || c == '-') then 1 else 0

theorem reads_signLength : Reads signLength := by
  have hsign : OnlyGraphic fun c => c == '+' || c == '-' :=
    (onlyGraphic_beq (by decide)).or (onlyGraphic_beq (by decide))
  exact .choose hsign.uniform.any_head?_seen (fun cs ht => ⟨rfl, plain_one hsign ht⟩) reads_zero

theorem exponentLength_eq (cs : List Char) : exponentLength cs =
    if cs.head?.any (fun c => c == 'e' || c == 'E') &&
        ((cs.drop 1).drop (signLength (cs.drop 1))).head?.any Char.isDigit then
      1 + (signLength (cs.drop 1) + digitRun ((cs.drop 1).drop (signLength (cs.drop 1))))
    else 0 := by
  cases cs with
  | nil => rfl
  | cons c cs =>
    have hsign : (if cs.head? == some '+' || cs.head? == some '-' then 1 else 0) =
        signLength cs := by cases cs <;> rfl
    simp only [exponentLength, hsign, List.head?_cons, Option.any_some, List.drop_one,
      List.tail_cons]
    cases c == 'e' || c == 'E' with
    | false => rfl
    | true => simp [Nat.add_assoc]

theorem reads_exponentLength : Reads exponentLength := by
  have hmark : OnlyGraphic fun c => c == 'e' || c == 'E' :=
    (onlyGraphic_beq (by decide)).or (onlyGraphic_beq (by decide))
  rw [funext exponentLength_eq]
  refine .choose (fun cs => ?_) (fun cs ht => ?_) reads_zero
  · rw [hmark.uniform.any_head?_seen]
    cases hhead : cs.head?.any fun c => c == 'e' || c == 'E' with
    | false => rfl
    | true =>
      rw [(plain_one hmark hhead).drop_seen, reads_signLength.seen_eq,
        (reads_signLength.plain _).drop_seen, onlyGraphic_isDigit.uniform.any_head?_seen]
  · rw [Bool.and_eq_true] at ht
    have hone := plain_one hmark ht.1
    have hrest := reads_signLength.add reads_digitRun
    rw [hone.drop_seen]
    exact ⟨congrArg (1 + ·) (hrest.seen_eq _), hone.add (hrest.plain _)⟩

theorem reads_decimalLength : Reads decimalLength :=
  (reads_digitRun.add reads_fractionLength).add reads_exponentLength

theorem digitsLength_eq (cs : List Char) : digitsLength cs =
    if cs.head?.any (· == '0') && (cs.drop 1).head?.any (fun c => c == 'x' || c == 'X') then
      1 + (1 + (((cs.drop 1).drop 1).takeWhile fun c => isHexDigit c || c == '_').length)
    else decimalLength cs := by
  rcases cs with _ | ⟨c, _ | ⟨d, cs⟩⟩
  · rfl
  · simp [digitsLength]
  · by_cases hc : c = '0'
    · subst hc
      rw [← Nat.add_assoc]
      rfl
    · simp [digitsLength, hc]

theorem reads_digitsLength : Reads digitsLength := by
  have hzero : OnlyGraphic (· == '0') := onlyGraphic_beq (by decide)
  have hmark : OnlyGraphic fun c => c == 'x' || c == 'X' :=
    (onlyGraphic_beq (by decide)).or (onlyGraphic_beq (by decide))
  have hhex : Reads fun cs => (cs.takeWhile fun c => isHexDigit c || c == '_').length :=
    .takeWhile (onlyGraphic_isHexDigit.or (onlyGraphic_beq (by decide)))
  rw [funext digitsLength_eq]
  refine .choose (fun cs => ?_) (fun cs ht => ?_) reads_decimalLength
  · rw [hzero.uniform.any_head?_seen]
    cases hhead : cs.head?.any (· == '0') with
    | false => rfl
    | true => rw [(plain_one hzero hhead).drop_seen, hmark.uniform.any_head?_seen]
  · rw [Bool.and_eq_true] at ht
    have hone := plain_one hzero ht.1
    have htwo := plain_one hmark ht.2
    rw [hone.drop_seen, htwo.drop_seen, hhex.seen_eq]
    exact ⟨rfl, hone.add (htwo.add (hhex.plain _))⟩

theorem reads_numberLength : Reads numberLength :=
  reads_digitsLength.add (.takeWhile onlyGraphic_isAlpha)

/-! ## Quoted literals -/

/-- What the bytes behind an opening quote tell, character by character. -/
theorem quotedBytes?_encode_cons {quote : Char} (hquote : quote.toNat < 0x80) (verbatim : Bool)
    (c : Char) (cs : List Char) : quotedBytes? quote verbatim (encode (c :: cs)) =
      if !verbatim && c == '\\' then
        match cs with
        | [] => some (1, false)
        | d :: ds =>
          if isLineBreak d then some (1, false)
          else (quotedBytes? quote verbatim (encode ds)).map fun r => (1 + d.utf8Size + r.1, r.2)
      else if !verbatim && isLineBreak c then some (0, false)
      else if c == quote then
        if verbatim && cs.head? == some quote then
          (quotedBytes? quote verbatim (encode (cs.drop 1))).map fun r => (2 + r.1, r.2)
        else some (1, true)
      else (quotedBytes? quote verbatim (encode cs)).map fun r => (c.utf8Size + r.1, r.2) := by
  obtain ⟨b, tail, h⟩ := exists_encode_cons c cs
  have hslash : (Char.ofUInt8 b == '\\') = (c == '\\') :=
    (uniform_beq (a := '\\') (by decide)).byte h
  have hquoteByte : (Char.ofUInt8 b == quote) = (c == quote) := (uniform_beq hquote).byte h
  rw [h, quotedBytes?.eq_def quote verbatim (b :: tail)]
  simp only [hslash, hquoteByte, uniform_isLineBreak.byte h]
  by_cases hguard : (!verbatim && c == '\\') = true
  · rw [if_pos hguard, if_pos hguard]
    obtain ⟨-, rfl⟩ : verbatim = false ∧ c = '\\' := by simpa using hguard
    obtain ⟨-, rfl⟩ := eq_of_ascii (by decide) h
    cases cs with
    | nil => rfl
    | cons d ds =>
      obtain ⟨b', tail', h'⟩ := exists_encode_cons d ds
      simp only [h', uniform_isLineBreak.byte h']
      simp only [← h', charAhead?_encode, drop_encode_cons]
  rw [if_neg hguard, if_neg hguard]
  by_cases hbreak : (!verbatim && isLineBreak c) = true
  · rw [if_pos hbreak, if_pos hbreak]
  rw [if_neg hbreak, if_neg hbreak]
  by_cases hend : (c == quote) = true
  · rw [if_pos hend, if_pos hend]
    obtain rfl := eq_of_beq hend
    obtain ⟨-, rfl⟩ := eq_of_ascii hquote h
    rw [head?_seen_beq hquote]
    by_cases htwice : (verbatim && cs.head? == some c) = true
    · have hhead := eq_of_beq (Bool.and_eq_true_iff.1 htwice).2
      obtain ⟨cs, rfl⟩ := List.head?_eq_some_iff.1 hhead
      have hdrop := drop_encode_cons c cs
      rw [utf8Size_of_ascii hquote] at hdrop
      rw [if_pos htwice, if_pos htwice, hdrop, List.drop_one, List.tail_cons]
    · rw [if_neg htwice, if_neg htwice]
  · rw [if_neg hend, if_neg hend]
    simp only [← h, charAhead?_encode, drop_encode_cons]

/-- A literal ends at the same place among the bytes. -/
theorem quotedBytes?_encode {quote : Char} (hquote : quote.toNat < 0x80)
    (hslash : quote ≠ '\\') (verbatim : Bool) (cs : List Char) :
    quotedBytes? quote verbatim (encode cs) =
      some (Text.byteLength (cs.take (quotedLength quote verbatim cs).1),
        (quotedLength quote verbatim cs).2) := by
  fun_induction quotedLength quote verbatim cs with
  | case1 => simp [quotedBytes?]
  | case2 c hbreak =>
    have hne : c ≠ '\\' := by
      rintro rfl
      simp [isLineBreak] at hbreak
    rw [quotedBytes?_encode_cons hquote, if_neg (by simp [hne]), if_pos hbreak]
    rfl
  | case3 c hbreak =>
    rw [quotedBytes?_encode_cons hquote]
    by_cases hguard : (!verbatim && c == '\\') = true
    · obtain ⟨-, rfl⟩ : verbatim = false ∧ c = '\\' := by simpa using hguard
      have hend : ('\\' == quote) = false := by simpa using hslash.symm
      rw [if_pos hguard, hend]
      rfl
    · rw [if_neg hguard, if_neg hbreak]
      cases hend : c == quote with
      | true =>
        obtain rfl := eq_of_beq hend
        simp [utf8Size_of_ascii hquote]
      | false => simp [quotedBytes?]
  | case4 c d cs hguard hbreak =>
    obtain ⟨-, rfl⟩ : verbatim = false ∧ c = '\\' := by simpa using hguard
    rw [quotedBytes?_encode_cons hquote, if_pos hguard]
    simp only [if_pos hbreak]
    rfl
  | case5 c d cs hguard hbreak n closed hrec ih =>
    obtain ⟨-, rfl⟩ : verbatim = false ∧ c = '\\' := by simpa using hguard
    have hsize : '\\'.utf8Size = 1 := utf8Size_of_ascii (by decide)
    rw [quotedBytes?_encode_cons hquote, if_pos hguard]
    simp [hbreak, ih, hrec, hsize, Nat.add_assoc]
  | case6 c d cs hguard hbreak =>
    rw [quotedBytes?_encode_cons hquote, if_neg hguard, if_pos hbreak]
    rfl
  | case7 c d cs hguard hbreak hend htwice n closed hrec ih =>
    obtain rfl := eq_of_beq hend
    obtain ⟨-, rfl⟩ : verbatim = true ∧ d = c := by simpa using htwice
    rw [quotedBytes?_encode_cons hquote, if_neg hguard, if_neg hbreak, if_pos hend,
      if_pos (by simpa using htwice)]
    simp [ih, hrec, utf8Size_of_ascii hquote]
    omega
  | case8 c d cs hguard hbreak hend honce =>
    obtain rfl := eq_of_beq hend
    rw [quotedBytes?_encode_cons hquote, if_neg hguard, if_neg hbreak, if_pos hend,
      if_neg (by simpa using honce)]
    simp [utf8Size_of_ascii hquote]
  | case9 c d cs hguard hbreak hend n closed hrec ih =>
    rw [quotedBytes?_encode_cons hquote, if_neg hguard, if_neg hbreak, if_neg hend, ih, hrec]
    simp

/-! ## Trivia -/

theorem commentEnd?_append_of_ne {ds : List Char} (hds : ∀ d ∈ ds, d ≠ '*') (cs : List Char) :
    commentEnd? (ds ++ cs) = (commentEnd? cs).map (ds.length + ·) := by
  induction ds with
  | nil => simp
  | cons d ds ih =>
    obtain ⟨hd, hds⟩ := List.forall_mem_cons.1 hds
    rw [List.cons_append, commentEnd?, ih hds, Option.map_map, if_neg (by simp [hd])]
    congr 1
    funext n
    simp
    omega

/-- A comment ends at the same place among the bytes. -/
theorem commentEnd?_seen (cs : List Char) :
    commentEnd? (seen cs) = (commentEnd? cs).map fun n => Text.byteLength (cs.take n) := by
  induction cs with
  | nil => rfl
  | cons c cs ih =>
    by_cases h : c.toNat < 0x80
    · rw [seen_cons_of_ascii h, commentEnd?, commentEnd?, head?_seen_beq (by decide), ih]
      by_cases hend : (c == '*' && cs.head? == some '/') = true
      · obtain ⟨rfl, hhead⟩ : c = '*' ∧ cs.head? = some '/' := by simpa using hend
        obtain ⟨cs, rfl⟩ := List.head?_eq_some_iff.1 hhead
        rfl
      · rw [if_neg hend, if_neg hend, Option.map_map, Option.map_map]
        congr 1
        funext n
        simp [utf8Size_of_ascii h, Nat.add_comm]
    · obtain ⟨d, ds, hseen, hall, hlength⟩ := seen_cons_of_not_ascii (Nat.not_lt.1 h) cs
      have hne (d' : Char) (hd' : 0x80 ≤ d'.toNat) : d' ≠ '*' := by
        rintro rfl
        exact absurd hd' (by decide)
      rw [hseen, commentEnd?_append_of_ne (fun d' hd' => hne d' (hall d' hd')), ih, hlength]
      simp [commentEnd?, hne c (Nat.not_lt.1 h), Function.comp_def]

/-- A piece of trivia ends at the same place among the bytes. -/
theorem triviaShape?_seen (lineStart : Bool) (c : Char) (cs : List Char) :
    triviaShape? lineStart c (seen cs) = (triviaShape? lineStart c cs).map fun shape =>
      { shape with more := Text.byteLength (cs.take shape.more) } := by
  have hline := uniform_isLineBreak.not.length_takeWhile_seen
  unfold triviaShape?
  rw [head?_seen_beq (by decide), head?_seen_beq (by decide), head?_seen_beq (by decide)]
  split
  · simp [uniform_isSpace.length_takeWhile_seen, take_length_takeWhile]
  split
  · by_cases hhead : cs.head? = some '\n'
    · obtain ⟨cs, rfl⟩ := List.head?_eq_some_iff.1 hhead
      have hsize : '\n'.utf8Size = 1 := utf8Size_of_ascii (by decide)
      split <;> simp [hsize]
    · simp [hhead]
  split
  · simp [restOfLine, hline, take_length_takeWhile]
  split
  · rename_i hopens
    obtain ⟨rfl, hhead⟩ : c = '/' ∧ cs.head? = some '*' := by simpa using hopens
    obtain ⟨cs, rfl⟩ := List.head?_eq_some_iff.1 hhead
    have hsize : '*'.utf8Size = 1 := utf8Size_of_ascii (by decide)
    rw [seen_cons_of_ascii (by decide), List.drop_one, List.tail_cons, List.drop_one,
      List.tail_cons, commentEnd?_seen]
    cases commentEnd? cs with
    | none => simp [hsize, Nat.add_comm]
    | some n => simp [hsize, Nat.add_comm]
  split
  · simp [restOfLine, hline, take_length_takeWhile]
  · rfl

theorem triviaShape?_of_not_ascii {c : Char} (hc : 0x80 ≤ c.toNat) (lineStart : Bool)
    (cs : List Char) : triviaShape? lineStart c cs = none := by
  have hne {a : Char} (ha : a.toNat < 0x80) : c ≠ a := by
    rintro rfl
    omega
  refine triviaShape?_eq_none_iff.2 ⟨uniform_isSpace c hc, uniform_isLineBreak c hc, ?_, ?_⟩
  · exact fun h => hne (by decide) h.1
  · exact fun h => hne (by decide) h.1

/-- The first byte and those behind it tell the shape of the trivia ahead. -/
theorem triviaShape?_bytes {lineStart : Bool} {c : Char} {tail : List Char} {b : UInt8}
    {bs : List UInt8} (h : encode (c :: tail) = b :: bs) :
    triviaShape? lineStart (Char.ofUInt8 b) (glance bs) =
      (triviaShape? lineStart c tail).map fun shape =>
        { shape with more := Text.byteLength (tail.take shape.more) } := by
  by_cases hc : c.toNat < 0x80
  · obtain ⟨hb, rfl⟩ := eq_of_ascii hc h
    rw [hb]
    exact triviaShape?_seen lineStart c tail
  · have hc' := Nat.not_lt.1 hc
    rw [triviaShape?_of_not_ascii hc', triviaShape?_of_not_ascii (not_ascii_of_byte hc' h)]
    rfl

/-- A piece of trivia is cut off between two characters. -/
theorem cut?_of_triviaShape? {lineStart : Bool} {c : Char} {tail : List Char} {b : UInt8}
    {bs : List UInt8} {shape : TriviaShape} (h : encode (c :: tail) = b :: bs)
    (found : triviaShape? lineStart c tail = some shape) :
    cut? (b :: bs) (Text.byteLength (tail.take shape.more) + 1) =
        some (String.ofList (c :: tail.take shape.more)) ∧
      bs.drop (Text.byteLength (tail.take shape.more)) = encode (tail.drop shape.more) := by
  have hc : c.toNat < 0x80 := by
    by_contra hc
    rw [triviaShape?_of_not_ascii (Nat.not_lt.1 hc)] at found
    cases found
  obtain ⟨-, rfl⟩ := eq_of_ascii hc h
  refine ⟨?_, drop_encode tail shape.more⟩
  have hcut := cut?_encode (c :: tail.take shape.more) (tail.drop shape.more)
  rwa [List.cons_append, List.take_append_drop, h, Text.byteLength_cons, utf8Size_of_ascii hc,
    Nat.add_comm] at hcut

/-- The trivia found among the bytes are those found among the characters. -/
theorem Gathers.triviaBytes?_eq {trailing lineStart : Bool} {cs rest : List Char}
    {trivia : List Trivia} (h : Gathers trailing lineStart cs trivia rest) :
    triviaBytes? trailing lineStart (encode cs) = some (trivia, encode rest) := by
  induction h with
  | nil => simp [triviaBytes?]
  | @token lineStart c tail shape =>
    obtain ⟨b, bs, hbytes⟩ := exists_encode_cons c tail
    rw [hbytes, triviaBytes?, triviaShape?_bytes hbytes, shape]
    rfl
  | @lineEnd lineStart c tail shape found stop =>
    obtain ⟨b, bs, hbytes⟩ := exists_encode_cons c tail
    obtain ⟨hcut, hdrop⟩ := cut?_of_triviaShape? hbytes found
    rw [hbytes, triviaBytes?, triviaShape?_bytes hbytes, found]
    simp only [Option.map_some, hcut, hdrop, stop, if_true]
    rfl
  | @more lineStart c tail rest shape trivia found goOn behind ih =>
    obtain ⟨b, bs, hbytes⟩ := exists_encode_cons c tail
    obtain ⟨hcut, hdrop⟩ := cut?_of_triviaShape? hbytes found
    rw [hbytes, triviaBytes?, triviaShape?_bytes hbytes, found]
    simp only [Option.map_some, hcut, hdrop, goOn, String.toList_ofList, ih]
    rfl

/-! ## Tokens -/

/-- The tests that tell what token stands ahead, one after the other. -/
theorem tokenShape_eq (c : Char) (cs : List Char) : tokenShape c cs =
    if isWordStart c then wordShape c cs
    else if c.isDigit || (c == '.' && cs.head?.any Char.isDigit) then
      ⟨.numericLiteral, numberLength (c :: cs) - 1, none⟩
    else if c == '"' then quotedShape .stringLiteral '"' false 0 cs
    else if c == '\'' then quotedShape .characterLiteral '\'' false 0 cs
    else if c == '@' && cs.head? == some '"' then
      quotedShape .stringLiteral '"' true 1 (cs.drop 1)
    else if c == '$' && cs.head? == some '"' then
      quotedShape .stringLiteral '"' false 1 (cs.drop 1)
    else if c == '$' && (cs.head? == some '@' && (cs.drop 1).head? == some '"') then
      quotedShape .stringLiteral '"' true 2 (cs.drop 2)
    else if c == '@' && cs.head?.any (fun d => d.isAlpha || d == '_') then
      ⟨.identifier, (cs.takeWhile isWordPart).length, none⟩
    else
      match mark? c cs.head? with
      | some (kind, more) => ⟨kind, more, none⟩
      | none => ⟨.unknown, 0, some .stray⟩ := by
  unfold tokenShape
  split
  · rfl
  split
  · rfl
  split
  · rfl
  · rfl
  · rfl
  · rfl
  · rfl
  · rename_i hstring hcharacter hverbatim hdollar hboth
    have apart {a b : Char} (h : (c == a && cs.head? == some b) = true) :
        c = a ∧ ∃ rest, cs = b :: rest := by
      obtain ⟨hc, hhead⟩ : c = a ∧ cs.head? = some b := by simpa using h
      exact ⟨hc, List.head?_eq_some_iff.1 hhead⟩
    have hstring' : ¬(c == '"') = true := by simpa using hstring
    have hcharacter' : ¬(c == '\'') = true := by simpa using hcharacter
    have hverbatim' : ¬(c == '@' && cs.head? == some '"') = true := fun h =>
      (apart h).2.elim fun rest hcs => hverbatim rest (apart h).1 hcs
    have hdollar' : ¬(c == '$' && cs.head? == some '"') = true := fun h =>
      (apart h).2.elim fun rest hcs => hdollar rest (apart h).1 hcs
    have hboth' :
        ¬(c == '$' && (cs.head? == some '@' && (cs.drop 1).head? == some '"')) = true := by
      rw [← Bool.and_assoc, Bool.and_eq_true]
      rintro ⟨h, hsecond⟩
      obtain ⟨hc, rest, rfl⟩ := apart h
      obtain ⟨rest, rfl⟩ := List.head?_eq_some_iff.1 (eq_of_beq hsecond)
      exact hboth rest hc rfl
    rw [if_neg hstring', if_neg hcharacter', if_neg hverbatim', if_neg hdollar']
    exact (if_neg hboth').symm

/-- A number takes its first character. -/
theorem numberLength_pos {c : Char} {cs : List Char}
    (h : (c.isDigit || (c == '.' && cs.head?.any Char.isDigit)) = true) :
    0 < numberLength (c :: cs) := by
  have hdecimal : 0 < decimalLength (c :: cs) := by
    cases hdigit : c.isDigit with
    | true =>
      have hrun : 0 < digitRun (c :: cs) := by
        rw [digitRun, List.takeWhile_cons_of_pos (by simp [hdigit])]
        exact Nat.succ_pos _
      simp only [decimalLength]
      omega
    | false =>
      obtain ⟨rfl, hnext⟩ : c = '.' ∧ cs.head?.any Char.isDigit = true := by
        simpa [hdigit] using h
      have hrun : digitRun ('.' :: cs) = 0 := rfl
      have hfraction : fractionLength ('.' :: cs) = 1 + digitRun cs := by
        rw [fractionLength_eq]
        simp [hnext]
      simp only [decimalLength, hrun, List.drop_zero, hfraction]
      omega
  have hdigits : 0 < digitsLength (c :: cs) := by
    rw [digitsLength_eq]
    split
    · omega
    · exact hdecimal
  exact Nat.lt_of_lt_of_le hdigits (Nat.le_add_right _ _)

/-- A second character not of ASCII adds nothing to a mark. -/
theorem mark?_of_not_ascii (c : Char) {d : Char} (hd : 0x80 ≤ d.toNat) :
    mark? c (some d) = mark? c none := by
  have hne {a : Char} (ha : a.toNat < 0x80) : d ≠ a := by
    rintro rfl
    omega
  unfold mark?
  split
  all_goals try rfl
  -- A mark of two characters ends with one of ASCII.
  all_goals try (rename_i heq; exact absurd (Option.some.inj heq) (hne (by decide)))
  split <;> simp_all

theorem mark?_seen (c : Char) (cs : List Char) :
    mark? c (seen cs).head? = mark? c cs.head? := by
  cases cs with
  | nil => rfl
  | cons d cs =>
    by_cases hd : d.toNat < 0x80
    · rw [seen_cons_of_ascii hd, List.head?_cons, List.head?_cons]
    · obtain ⟨d', ds, hseen, hall, -⟩ := seen_cons_of_not_ascii (Nat.not_lt.1 hd) cs
      rw [hseen, List.cons_append, List.head?_cons, List.head?_cons,
        mark?_of_not_ascii c (hall d' (by simp)), mark?_of_not_ascii c (Nat.not_lt.1 hd)]

theorem mark?_short {c : Char} {next : Option Char} {kind : Kind} {more : Nat}
    (h : mark? c next = some (kind, more)) :
    Graphic c ∧ (more = 0 ∨ more = 1 ∧ ∃ d, next = some d ∧ Graphic d) := by
  unfold mark? at h
  split at h <;> cases h <;> simp [Graphic]

/-- A mark is made of graphic characters. -/
theorem plain_of_mark? {c : Char} {cs : List Char} {kind : Kind} {more : Nat}
    (h : mark? c cs.head? = some (kind, more)) : Plain (more + 1) (c :: cs) := by
  obtain ⟨hc, rfl | ⟨rfl, d, hd, hgraphic⟩⟩ := mark?_short h
  · exact (plain_zero cs).cons hc
  · obtain ⟨rest, rfl⟩ := List.head?_eq_some_iff.1 hd
    exact ((plain_zero rest).cons hgraphic).cons hc

theorem mark?_eq_none {c : Char} (hc : 0x80 ≤ c.toNat) (next : Option Char) :
    mark? c next = none := by
  cases h : mark? c next with
  | none => rfl
  | some found => exact absurd (mark?_short h).1.2 (Nat.not_lt.2 hc)

/-- The literal found among the bytes is the one found among the characters. -/
theorem literalBytes?_encode (kind : Kind) {quote : Char} (hquote : quote.toNat < 0x80)
    (hslash : quote ≠ '\\') (verbatim : Bool) {before : Nat} {c : Char} {cs : List Char}
    (hplain : Plain (before + 1) (c :: cs)) :
    literalBytes? kind quote verbatim before (encode (c :: cs)) =
      some ((quotedShape kind quote verbatim before (cs.drop before)).kind,
        Text.byteLength
          (c :: cs.take (quotedShape kind quote verbatim before (cs.drop before)).more)) := by
  have hdrop : (encode (c :: cs)).drop (before + 1) = encode (cs.drop before) := by
    have hdrop := drop_encode (c :: cs) (before + 1)
    rwa [hplain.byteLength_take] at hdrop
  have hbytes := hplain.byteLength_take
  rw [List.take_succ_cons, Text.byteLength_cons] at hbytes
  rw [literalBytes?, hdrop, quotedBytes?_encode hquote hslash, Option.map_some]
  simp only [quotedShape, Text.byteLength_cons, List.take_add, Text.byteLength_append]
  rw [← Nat.add_assoc, hbytes]

theorem keywordBytes?_encode {c : Char} (hc : isWordStart c = true) (cs : List Char) :
    keywordBytes? (encode (c :: cs)) = some ((wordShape c cs).kind,
      Text.byteLength (c :: cs.take (wordShape c cs).more)) := by
  have hpart : isWordPart c = true := by
    obtain h | h : Text.isLetter c = true ∨ c = '_' := by simpa [isWordStart] using hc
    · simp [isWordPart, h]
    · simp [isWordPart, h]
  have hcut := cut?_encode (c :: cs.takeWhile isWordPart) (cs.dropWhile isWordPart)
  rw [List.cons_append, List.takeWhile_append_dropWhile] at hcut
  rw [keywordBytes?, wordBytes?_encode, List.takeWhile_cons_of_pos hpart, Option.bind_some, hcut,
    Option.map_some]
  simp only [wordShape, take_length_takeWhile]

/-- Two characters ahead are found among the bytes just if they are found among the characters. -/
theorem two_ahead_seen {a a' : Char} (ha : a.toNat < 0x80) (ha' : a'.toNat < 0x80)
    (cs : List Char) :
    ((seen cs).head? == some a && ((seen cs).drop 1).head? == some a') =
      (cs.head? == some a && (cs.drop 1).head? == some a') := by
  rw [head?_seen_beq ha]
  cases hhead : cs.head? == some a with
  | false => rfl
  | true =>
    obtain ⟨ds, rfl⟩ := List.head?_eq_some_iff.1 (eq_of_beq hhead)
    rw [seen_cons_of_ascii ha, List.drop_one, List.drop_one, List.tail_cons, List.tail_cons,
      head?_seen_beq ha']

theorem tokenBytes?_encode_of_not_ascii {c : Char} (hc : 0x80 ≤ c.toNat)
    (hword : ¬isWordStart c = true) (cs : List Char) :
    tokenBytes? c (encode (c :: cs)) = some ((tokenShape c cs).kind,
      Text.byteLength (c :: cs.take (tokenShape c cs).more)) := by
  have hne {a : Char} (ha : a.toNat < 0x80) : (c == a) = false := uniform_beq ha c hc
  simp [tokenBytes?, tokenShape_eq, hword, onlyGraphic_isDigit.uniform c hc, mark?_eq_none hc,
    hne (a := '.') (by decide), hne (a := '"') (by decide), hne (a := '\'') (by decide),
    hne (a := '@') (by decide), hne (a := '$') (by decide)]

theorem tokenBytes?_encode_of_ascii {c : Char} (hc : c.toNat < 0x80)
    (hword : ¬isWordStart c = true) (cs : List Char) :
    tokenBytes? c (encode (c :: cs)) = some ((tokenShape c cs).kind,
      Text.byteLength (c :: cs.take (tokenShape c cs).more)) := by
  have hdrop : (encode (c :: cs)).drop 1 = encode cs := by
    have hdrop := drop_encode_cons c cs
    rwa [utf8Size_of_ascii hc] at hdrop
  have hnameStart : Uniform (fun d => d.isAlpha || d == '_') false :=
    onlyGraphic_isAlpha.uniform.or (uniform_beq (by decide))
  simp only [tokenBytes?, hdrop]
  rw [tokenShape_eq, onlyGraphic_isDigit.uniform.any_head?_seen, head?_seen_beq (by decide),
    two_ahead_seen (by decide) (by decide), hnameStart.any_head?_seen, mark?_seen,
    if_neg hword, if_neg hword]
  split
  · rename_i hnumber
    have hpos := numberLength_pos hnumber
    have hplain := reads_numberLength.plain (c :: cs)
    have hbytes := hplain.byteLength_take
    obtain ⟨n, hn⟩ : ∃ n, numberLength (c :: cs) = n + 1 := ⟨_, (Nat.sub_add_cancel hpos).symm⟩
    rw [reads_numberLength.seen_eq]
    rw [hn, List.take_succ_cons] at hbytes
    simp [hn, hbytes]
  split
  · rename_i h
    have hplain := (plain_zero cs).cons (onlyGraphic_beq (by decide) c h)
    exact literalBytes?_encode .stringLiteral (by decide) (by decide) false hplain
  split
  · rename_i h
    have hplain := (plain_zero cs).cons (onlyGraphic_beq (by decide) c h)
    exact literalBytes?_encode .characterLiteral (by decide) (by decide) false hplain
  split
  · rename_i h
    exact literalBytes?_encode .stringLiteral (by decide) (by decide) true
      (plain_two (by decide) (by decide) h)
  split
  · rename_i h
    exact literalBytes?_encode .stringLiteral (by decide) (by decide) false
      (plain_two (by decide) (by decide) h)
  split
  · rename_i h
    exact literalBytes?_encode .stringLiteral (by decide) (by decide) true
      (plain_three (by decide) (by decide) (by decide) h)
  split
  · rw [wordBytes?_encode, Option.map_some, Text.byteLength_cons, utf8Size_of_ascii hc,
      take_length_takeWhile]
  cases hmark : mark? c cs.head? with
  | none => simp
  | some found =>
    obtain ⟨kind, more⟩ := found
    have hbytes := (plain_of_mark? hmark).byteLength_take
    rw [List.take_succ_cons] at hbytes
    simp only [hbytes]

/-- The token found among the bytes is the one found among the characters. -/
theorem tokenBytes?_encode (c : Char) (cs : List Char) :
    tokenBytes? c (encode (c :: cs)) = some ((tokenShape c cs).kind,
      Text.byteLength (c :: cs.take (tokenShape c cs).more)) := by
  by_cases hword : isWordStart c = true
  · rw [tokenBytes?, tokenShape_eq, if_pos hword, if_pos hword, keywordBytes?_encode hword]
  by_cases hc : c.toNat < 0x80
  · exact tokenBytes?_encode_of_ascii hc hword cs
  · exact tokenBytes?_encode_of_not_ascii (Nat.not_lt.1 hc) hword cs

/-! ## The text -/

/-- Trivia leaves no more bytes than there were. -/
theorem Gathers.length_encode_le {trailing lineStart : Bool} {cs rest : List Char}
    {trivia : List Trivia} (h : Gathers trailing lineStart cs trivia rest) :
    (encode rest).length ≤ (encode cs).length := by
  rw [← h.toList_append, encode_append, List.length_append]
  exact Nat.le_add_left _ _

/-- Lexing the bytes of a text gives the tokens of the text: no cut falls within a character, and
every step goes on. -/
theorem lexBytes?_encode (lineStart : Bool) (offset : Nat) (cs : List Char) :
    lexBytes? lineStart (encode cs) =
      some ((lexFrom lineStart offset cs).1.map Lexeme.token) := by
  fun_induction lexFrom lineStart offset cs with
  | case1 lineStart offset cs lead h =>
    have hlead := (gathers_triviaRun false lineStart offset cs).triviaBytes?_eq
    rw [h, encode_nil] at hlead
    rw [lexBytes?, hlead]
    rfl
  | case2 lineStart offset cs lead c tail h shape text trail lexemes errors hrec ih =>
    have hlead := gathers_triviaRun false lineStart offset cs
    have htrail : Gathers true false (tail.drop shape.more) trail.trivia trail.rest :=
      gathers_triviaRun true false _ _
    rw [h] at hlead
    obtain ⟨b, bs, hbytes⟩ := exists_encode_cons c tail
    have htoken : (charAhead? (b :: bs)).bind (tokenBytes? · (b :: bs)) =
        some (shape.kind, Text.byteLength text) := by
      rw [← hbytes, charAhead?_encode, Option.bind_some, tokenBytes?_encode]
    have hcut : cut? (b :: bs) (Text.byteLength text) = some (String.ofList text) := by
      have hcut := cut?_encode text (tail.drop shape.more)
      rwa [List.cons_append, List.take_append_drop, hbytes] at hcut
    have hdrop : (b :: bs).drop (Text.byteLength text) = encode (tail.drop shape.more) := by
      have hdrop := drop_encode (c :: tail) (shape.more + 1)
      rwa [List.take_succ_cons, List.drop_succ_cons, hbytes] at hdrop
    have hprogress : (encode trail.rest).length < (encode cs).length := by
      have hpos := c.utf8Size_pos
      have htail : (encode (tail.drop shape.more)).length ≤ (encode tail).length := by
        rw [← drop_encode]
        exact (List.drop_sublist _ _).length_le
      have hcons : (encode (c :: tail)).length = c.utf8Size + (encode tail).length := by simp
      have hle := hlead.length_encode_le
      have hle' := htrail.length_encode_le
      omega
    rw [lexBytes?, hlead.triviaBytes?_eq, hbytes]
    simp only [htoken, hcut, hdrop, htrail.triviaBytes?_eq]
    rw [dif_pos hprogress, ih, hrec]
    rfl

end NullLint.Lexer
