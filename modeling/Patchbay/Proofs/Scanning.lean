import Mathlib.Algebra.Group.Int.Defs
import Patchbay.Json.Nesting
import Patchbay.Json.Text

/-!
# Scanning written text

What is written is scanned as the tokens that it was written from. Most of the text can be scanned
piece by piece; only a number literal goes on as far as it can, so what follows it has to start
with something else. `Scans` is said of a piece that is read alike wherever it stands, `Writes` of
one that may end in a number.

What is proved here:
  1. `next?_number`: a number literal is read as far as it stops, whatever comes then.
  2. `legible_int`: integer literals read back. Of doubles this is not known; it is a
     property of the shortest literal and of the arithmetic of the reader.
  3. `next?_quoted`: string literals read back, whatever characters they have.
  4. `Scans.append`, `Scans.append_writes`, `Writes.append_scans`: how pieces are put together.
-/

namespace Patchbay.Json

/-- The literal of the number reads back to the same number. -/
def Number.Legible (n : Number) : Prop :=
  Token.next? n.text.toList = some (.number (some n), [])

namespace Token

/-! ## Numbers -/

/-- Whether a number literal could go on with this character. -/
def continues (c : Char) : Bool := c.isDigit || c == '.' || c == 'e' || c == 'E'

def Stops (rest : List Char) : Prop := ∀ c ∈ rest.head?, continues c = false

variable {cs rest r : List Char}

theorem stops_nil : Stops [] := fun c hc => by cases hc

theorem stops_cons {c : Char} (h : continues c = false) (rest : List Char) : Stops (c :: rest) := by
  intro c' hc'
  cases hc'
  exact h

theorem digits_append (h : Stops rest) (cs : List Char) :
    digits (cs ++ rest) = ((digits cs).1, (digits cs).2 ++ rest) := by
  induction cs with
  | nil =>
    cases rest with
    | nil => rfl
    | cons c rest =>
      have hc := h c rfl
      simp only [continues, Bool.or_eq_false_iff] at hc
      simp [digits, hc]
  | cons c cs ih =>
    simp only [digits, Prod.mk.injEq, List.cons_append, List.takeWhile_cons,
      List.dropWhile_cons] at ih ⊢
    split
    · exact ⟨congrArg (c :: ·) ih.1, ih.2⟩
    · exact ⟨rfl, rfl⟩

theorem fraction?_append (h : Stops rest) {f : Option (List Char)}
    (hf : fraction? cs = some (f, r)) : fraction? (cs ++ rest) = some (f, r ++ rest) := by
  unfold fraction? at hf
  split at hf
  · rename_i after
    rw [List.cons_append, fraction?, digits_append h]
    dsimp only at hf ⊢
    split at hf
    · cases hf
    · cases hf
      rename_i hne
      rw [if_neg hne]
  · rename_i hdot
    cases hf
    unfold fraction?
    split
    · rename_i after he
      cases cs with
      | nil =>
        rw [List.nil_append] at he
        subst he
        cases h '.' rfl
      | cons c cs =>
        obtain ⟨rfl, -⟩ := List.cons.inj he
        exact absurd rfl (hdot cs)
    · rfl

theorem exponentDigits?_append (h : Stops rest) {negative : Bool} {e : Option (Bool × List Char)}
    (he : exponentDigits? negative cs = some (e, r)) :
    exponentDigits? negative (cs ++ rest) = some (e, r ++ rest) := by
  unfold exponentDigits? at he ⊢
  rw [digits_append h]
  dsimp only at he ⊢
  split at he
  · cases he
  · cases he
    rename_i hne
    rw [if_neg hne]

theorem exponent?_append (h : Stops rest) {e : Option (Bool × List Char)}
    (he : exponent? cs = some (e, r)) : exponent? (cs ++ rest) = some (e, r ++ rest) := by
  cases cs with
  | nil =>
    cases he
    cases rest with
    | nil => rfl
    | cons c rest =>
      have hc := h c rfl
      simp only [continues, Bool.or_eq_false_iff] at hc
      simp [exponent?, hc]
  | cons c cs =>
    rw [List.cons_append]
    unfold exponent? at he ⊢
    dsimp only at he ⊢
    split at he
    · rename_i hc
      rw [if_pos hc]
      cases cs with
      | nil => cases he
      | cons d cs =>
        rw [List.cons_append]
        -- A sign is taken off in front of the digits; any other character begins them.
        by_cases hplus : d = '+'
        · subst hplus
          exact exponentDigits?_append h he
        by_cases hminus : d = '-'
        · subst hminus
          exact exponentDigits?_append h he
        split at he
        · exact absurd (List.cons.inj ‹_›).1 hplus
        · exact absurd (List.cons.inj ‹_›).1 hminus
        · split
          · exact absurd (List.cons.inj ‹_›).1 hplus
          · exact absurd (List.cons.inj ‹_›).1 hminus
          · exact exponentDigits?_append h he
    · rename_i hc
      cases he
      rw [if_neg hc]
      rfl

theorem unsigned?_append (h : Stops rest) {negative : Bool} {l : NumberLiteral}
    (hl : unsigned? negative cs = some (l, r)) :
    unsigned? negative (cs ++ rest) = some (l, r ++ rest) := by
  unfold unsigned? at hl ⊢
  rw [digits_append h]
  dsimp only at hl ⊢
  split at hl
  · cases hl
  · cases hl
  · rename_i hne hzero
    split at hl
    · cases hl
    · rename_i f after hf
      split at hl
      · cases hl
      · rename_i e after' he
        cases hl
        rw [fraction?_append h hf]
        dsimp only
        rw [exponent?_append h he]

theorem next?_digit {c : Char} (h : c.isDigit = true) (cs : List Char) :
    next? (c :: cs) =
      (unsigned? false (c :: cs)).map fun (l, rest) => (.number l.value?, rest) := by
  unfold next?
  split
  case h_12 =>
    cases unsigned? false (c :: cs) <;> rfl
  all_goals
    rename_i he
    obtain ⟨rfl, -⟩ := List.cons.inj he
    exact absurd h (by decide)

theorem next?_minus (cs : List Char) :
    next? ('-' :: cs) = (unsigned? true cs).map fun (l, rest) => (.number l.value?, rest) := by
  rw [next?]
  cases unsigned? true cs <;> rfl

theorem head_of_unsigned? {negative : Bool} {l : NumberLiteral}
    (h : unsigned? negative cs = some (l, r)) : ∃ c cs', cs = c :: cs' ∧ c.isDigit = true := by
  cases cs with
  | nil => cases h
  | cons c cs =>
    refine ⟨c, cs, rfl, ?_⟩
    cases hc : c.isDigit with
    | true => rfl
    | false =>
      have hdigits : digits (c :: cs) = ([], c :: cs) := by simp [digits, hc]
      unfold unsigned? at h
      rw [hdigits] at h
      cases h

theorem next?_number (h : Stops rest) {n : Option Number}
    (hn : next? cs = some (.number n, r)) : next? (cs ++ rest) = some (.number n, r ++ rest) := by
  unfold next? at hn
  split at hn
  -- Only a minus sign or a digit can have led to a number.
  case h_10 =>
    split at hn <;> cases hn
  case h_11 cs =>
    rw [List.cons_append, next?_minus]
    split at hn
    · rename_i hl
      cases hn
      rw [unsigned?_append h hl]
      rfl
    · cases hn
  case h_12 =>
    split at hn
    · rename_i hl
      cases hn
      obtain ⟨c, cs, rfl, hc⟩ := head_of_unsigned? hl
      rw [List.cons_append, next?_digit hc, ← List.cons_append, unsigned?_append h hl]
      rfl
    · cases hn
  all_goals cases hn

/-! ## Integers -/

theorem digits_of_all {cs : List Char} (h : ∀ c ∈ cs, c.isDigit = true) : digits cs = (cs, []) := by
  induction cs with
  | nil => rfl
  | cons c cs ih =>
    obtain ⟨hc, hcs⟩ := List.forall_mem_cons.1 h
    have hrest := ih hcs
    simp only [digits, Prod.mk.injEq] at hrest
    simp [digits, hc, hrest]

theorem head?_toDigits {n : Nat} (h : 0 < n) : (Nat.toDigits 10 n).head? ≠ some '0' := by
  induction n using Nat.strongRecOn with
  | ind n ih =>
    rw [Nat.toDigits_eq_if (by decide)]
    split
    · intro hzero
      have := Nat.digitChar_eq_zero.1 (Option.some.inj hzero)
      omega
    · intro hzero
      rw [List.head?_append] at hzero
      cases hhead : (Nat.toDigits 10 (n / 10)).head? with
      | none =>
        have hpos : 0 < (Nat.toDigits 10 (n / 10)).length := Nat.length_toDigits_pos
        rw [List.head?_eq_none_iff.1 hhead] at hpos
        cases hpos
      | some c =>
        rw [hhead] at hzero
        exact ih (n / 10) (by omega) (by omega) (hhead.trans hzero)

theorem unsigned?_toDigits (negative : Bool) (n : Nat) :
    unsigned? negative (Nat.toDigits 10 n) =
      some (⟨negative, Nat.toDigits 10 n, none, none⟩, []) := by
  have hall : ∀ c ∈ Nat.toDigits 10 n, c.isDigit = true := fun c hc =>
    Nat.isDigit_of_mem_toDigits (by decide) (by decide) hc
  unfold unsigned?
  rw [digits_of_all hall]
  dsimp only
  split
  · rename_i hnil
    have := Nat.length_toDigits_pos (b := 10) (n := n)
    rw [hnil] at this
    cases this
  · rename_i hzero
    cases n with
    | zero => cases hzero
    | succ n =>
      have := head?_toDigits (Nat.succ_pos n)
      rw [hzero] at this
      exact absurd rfl this
  · rfl

theorem digitsValue_toDigits (n : Nat) : NumberLiteral.digitsValue (Nat.toDigits 10 n) = n := by
  have h := Nat.ofDigitChars_ten_toDigits (n := n)
  rw [Nat.ofDigitChars_eq_foldl] at h
  exact h

theorem value?_toDigits {n : Nat} (h : n < Nat.pow 2 64) :
    NumberLiteral.value? ⟨false, Nat.toDigits 10 n, none, none⟩ = some (.int n) := by
  have hfits : decide (n < 18446744073709551616) = true := decide_eq_true h
  simp [NumberLiteral.value?, digitsValue_toDigits, hfits]

theorem value?_toDigits_negative {n : Nat} (hpos : 0 < n) (h : n ≤ Nat.pow 2 63) :
    NumberLiteral.value? ⟨true, Nat.toDigits 10 n, none, none⟩ = some (.int (-n)) := by
  have hlimit : Nat.pow 2 63 = 9223372036854775808 := rfl
  have hfits : n < 18446744073709551616 := by omega
  rw [hlimit] at h
  simp [NumberLiteral.value?, digitsValue_toDigits, hfits, hpos, h]

theorem legible_int {z : Int} (hlow : -2 ^ 63 ≤ z) (hhigh : z < 2 ^ 64) :
    (Number.int z).Legible := by
  rw [Number.Legible]
  have hlimit : Nat.pow 2 63 = 9223372036854775808 := rfl
  have hlimit' : Nat.pow 2 64 = 18446744073709551616 := rfl
  cases z with
  | ofNat n =>
    have htext : (Number.int (.ofNat n)).text.toList = Nat.toDigits 10 n := by
      show (toString n).toList = _
      rw [Nat.toString_eq_ofList_toDigits, String.toList_ofList]
    obtain ⟨c, cs, he, hc⟩ := head_of_unsigned? (unsigned?_toDigits false n)
    have hn : (n : Int) < 2 ^ 64 := hhigh
    have hvalue : NumberLiteral.value? ⟨false, Nat.toDigits 10 n, none, none⟩ = some (.int n) :=
      value?_toDigits (by omega)
    rw [htext, he, next?_digit hc, ← he, unsigned?_toDigits]
    exact congrArg (fun v => some (Token.number v, [])) hvalue
  | negSucc n =>
    have htext : (Number.int (.negSucc n)).text.toList = '-' :: Nat.toDigits 10 (n + 1) := by
      show ("-" ++ (toString (n + 1))).toList = _
      rw [String.toList_append, Nat.toString_eq_ofList_toDigits, String.toList_ofList,
        String.toList_ofList, List.singleton_append]
    have hvalue : NumberLiteral.value? ⟨true, Nat.toDigits 10 (n + 1), none, none⟩ =
        some (.int (-(n + 1 : Nat))) := value?_toDigits_negative (Nat.succ_pos n) (by omega)
    rw [htext, next?_minus, unsigned?_toDigits]
    exact congrArg (fun v => some (Token.number v, [])) hvalue

/-! ## Strings -/

theorem hexValue?_hexDigit : ∀ n < 16, hexValue? (hexDigit n) = some n := by decide

theorem codeUnit?_hexDigits {n : Nat} (h : n < 0x20) :
    codeUnit? '0' '0' (hexDigit (n / 16)) (hexDigit (n % 16)) = some n := by
  have hhigh := hexValue?_hexDigit (n / 16) (by omega)
  have hlow := hexValue?_hexDigit (n % 16) (by omega)
  have hzero : hexValue? '0' = some 0 := rfl
  simp only [codeUnit?, hzero, hhigh, hlow, Option.bind_eq_bind, Option.bind_some, Option.pure_def,
    Option.some.injEq]
  omega

theorem stringUnits?_plain {c : Char} (hquote : c ≠ '"') (hslash : c ≠ '\\')
    (hprintable : ¬ c.toNat < 0x20) (rest : List Char) :
    stringUnits? (c :: rest) = (stringUnits? rest).map fun (us, r) => (c.toNat :: us, r) := by
  rw [stringUnits?]
  · rw [if_neg hprintable]
    cases stringUnits? rest <;> rfl
  · exact fun h => hquote h
  · exact fun _ _ _ _ _ h _ => hslash h
  · exact fun _ _ h _ => hslash h

theorem stringUnits?_escape {e c : Char} (h : escape? e = some c) (hu : e ≠ 'u')
    (rest : List Char) : stringUnits? ('\\' :: e :: rest) =
      (stringUnits? rest).map fun (us, r) => (c.toNat :: us, r) := by
  rw [stringUnits?, h]
  · cases stringUnits? rest <;> rfl
  · exact fun _ _ _ _ _ he _ => hu he

theorem stringUnits?_escaped (c : Char) (rest : List Char) :
    stringUnits? ((escaped c).toList ++ rest) =
      (stringUnits? rest).map fun (us, r) => (c.toNat :: us, r) := by
  unfold escaped
  split
  case h_8 hquote hslash _ _ _ _ _ =>
    split
    · rename_i hcontrol
      show stringUnits? (String.toList (.ofList _) ++ rest) = _
      rw [String.toList_ofList, List.cons_append, List.cons_append, List.cons_append,
        List.cons_append, List.cons_append, List.cons_append, List.nil_append, stringUnits?,
        codeUnit?_hexDigits hcontrol]
      cases stringUnits? rest <;> rfl
    · rename_i hprintable
      rw [String.toList_singleton]
      exact stringUnits?_plain hquote hslash hprintable rest
  all_goals exact stringUnits?_escape rfl (by decide) rest

theorem joinUnits?_chars (cs : List Char) : joinUnits? (cs.map Char.toNat) = some cs := by
  induction cs with
  | nil => rfl
  | cons c cs ih =>
    have hvalid : c.toNat < 0xD800 ∨ 0xDFFF < c.toNat ∧ c.toNat < 0x110000 := c.valid
    have hhigh : ¬ (decide (0xD800 ≤ c.toNat) && decide (c.toNat < 0xDC00)) = true := by
      simp only [Bool.and_eq_true, decide_eq_true_eq]
      omega
    have hlow : ¬ (decide (0xDC00 ≤ c.toNat) && decide (c.toNat < 0xE000)) = true := by
      simp only [Bool.and_eq_true, decide_eq_true_eq]
      omega
    rw [List.map_cons]
    unfold joinUnits?
    rw [if_neg hhigh, if_neg hlow, ih, Char.ofNat_toNat]
    rfl

theorem stringUnits?_quoted (cs rest : List Char) :
    stringUnits? ((cs.map escaped).flatMap String.toList ++ '"' :: rest) =
      some (cs.map Char.toNat, rest) := by
  induction cs with
  | nil => rw [List.map_nil, List.flatMap_nil, List.nil_append, stringUnits?]; rfl
  | cons c cs ih =>
    rw [List.map_cons, List.flatMap_cons, List.append_assoc, stringUnits?_escaped, ih]
    rfl

theorem toList_quoted (s : String) :
    (quoted s).toList = '"' :: ((s.toList.map escaped).flatMap String.toList ++ ['"']) := by
  simp [quoted, String.toList_join]

theorem next?_quoted (s : String) (rest : List Char) :
    next? ((quoted s).toList ++ rest) = some (.string (some s), rest) := by
  rw [toList_quoted, List.cons_append, List.append_assoc, List.singleton_append, next?,
    stringUnits?_quoted]
  simp only [joinUnits?_chars, Option.map_some, String.ofList_toList]

/-! ## Scanning -/

theorem scan?_blank {c : Char} (h : isBlank c = true) (cs : List Char) :
    scan? (c :: cs) = scan? cs := by
  rw [scan?, if_pos h]

theorem next?_blank {c : Char} (h : isBlank c = true) (cs : List Char) :
    next? (c :: cs) = none := by
  simp only [isBlank, Bool.or_eq_true, beq_iff_eq] at h
  obtain ((rfl | rfl) | rfl) | rfl := h <;> rfl

theorem scan?_token {t : Token} (h : next? cs = some (t, rest)) :
    scan? cs = (scan? rest).map (t :: ·) := by
  cases cs with
  | nil => cases h
  | cons c cs =>
    have hblank : ¬ isBlank c = true := fun hc => by
      rw [next?_blank hc] at h
      cases h
    rw [scan?, if_neg hblank]
    split
    · rename_i hnone
      rw [hnone] at h
      cases h
    · rename_i heq
      rw [heq] at h
      cases h
      rfl

/-- The text is scanned as these tokens, whatever follows it. -/
def Scans (cs : List Char) (ts : List Token) : Prop :=
  ∀ rest, scan? (cs ++ rest) = (scan? rest).map (ts ++ ·)

/-- The text is scanned as these tokens if no number literal goes on behind it. -/
def Writes (cs : List Char) (ts : List Token) : Prop :=
  ∀ rest, Stops rest → scan? (cs ++ rest) = (scan? rest).map (ts ++ ·)

variable {as bs : List Char} {ts us : List Token}

theorem Scans.writes (h : Scans as ts) : Writes as ts := fun rest _ => h rest

theorem Writes.scan? (h : Writes as ts) : scan? as = some ts := by
  have hend := h [] stops_nil
  rw [List.append_nil, Token.scan?, Option.map_some, List.append_nil] at hend
  exact hend

theorem Scans.append (h : Scans as ts) (h' : Scans bs us) : Scans (as ++ bs) (ts ++ us) := by
  intro rest
  rw [List.append_assoc, h, h', Option.map_map]
  exact congrArg (Option.map · _) (funext fun vs => (List.append_assoc ts us vs).symm)

theorem Scans.append_writes (h : Scans as ts) (h' : Writes bs us) :
    Writes (as ++ bs) (ts ++ us) := by
  intro rest hrest
  rw [List.append_assoc, h, h' rest hrest, Option.map_map]
  exact congrArg (Option.map · _) (funext fun vs => (List.append_assoc ts us vs).symm)

/-- What follows a text that may end in a number starts with something else. -/
theorem Writes.append_scans {c : Char} (h : Writes as ts) (hc : continues c = false)
    (h' : Scans (c :: bs) us) : Scans (as ++ c :: bs) (ts ++ us) := by
  intro rest
  have hstops : Stops ((c :: bs) ++ rest) := stops_cons hc _
  rw [List.append_assoc, h _ hstops, h', Option.map_map]
  exact congrArg (Option.map · _) (funext fun vs => (List.append_assoc ts us vs).symm)

theorem scans_blanks (h : ∀ c ∈ cs, isBlank c = true) : Scans cs [] := by
  intro rest
  induction cs with
  | nil => exact Option.map_id'.symm
  | cons c cs ih =>
    obtain ⟨hc, hcs⟩ := List.forall_mem_cons.1 h
    rw [List.cons_append, scan?_blank hc, ih hcs]

theorem scans_blank {c : Char} (h : isBlank c = true) : Scans [c] [] :=
  scans_blanks (List.forall_mem_singleton.2 h)

theorem scans_token {t : Token} (h : ∀ rest, next? (cs ++ rest) = some (t, rest)) :
    Scans cs [t] := fun rest => scan?_token (h rest)

theorem writes_number {n : Option Number} (h : next? cs = some (.number n, [])) :
    Writes cs [.number n] := fun _ hrest => scan?_token (next?_number hrest h)

theorem scans_quoted (s : String) : Scans (quoted s).toList [.string (some s)] :=
  scans_token (next?_quoted s)

end Token

end Patchbay.Json
