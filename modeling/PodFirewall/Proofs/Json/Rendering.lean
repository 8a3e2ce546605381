import PodFirewall.Json.Parser
import PodFirewall.Json.Printer
import PodFirewall.Proofs.Text.Decimal
import Mathlib.Data.List.Basic

/-!
Written values that are read back. The text of a value is scanned into the tokens
of the value, and these are read as the value. Both are shown for a value with
something behind it: what follows a value cannot prolong it.
-/

namespace PodFirewall

namespace Json

/-! ### Numbers -/

/-- Whether a text does not prolong a number that stands in front of it. -/
def Ends (rest : List Char) : Prop :=
  ∀ c ∈ rest.head?, c.isDigit = false ∧ c ≠ '.' ∧ c ≠ 'e' ∧ c ≠ 'E'

theorem ends_nil : Ends [] := nofun

theorem ends_cons (c : Char) (h : c ∈ [',', ']', '\x7d']) (rest : List Char) :
    Ends (c :: rest) := by
  rintro _ ⟨⟩
  simp only [List.mem_cons, List.not_mem_nil, or_false] at h
  rcases h with rfl | rfl | rfl <;> decide

theorem scanUnsigned_toDigits (negative : Bool) (n : Nat) {rest : List Char} (h : Ends rest) :
    scanUnsigned negative (Nat.toDigits 10 n ++ rest) =
      some (numberValue negative (Nat.toDigits 10 n) [] [], rest) := by
  have hspan : Decimal.span (Nat.toDigits 10 n ++ rest) = (Nat.toDigits 10 n, rest) :=
    Decimal.span_append (fun _ hd => Nat.isDigit_of_mem_toDigits (by decide) (by decide) hd)
      fun c hc => (h c hc).1
  have hzero : ((Nat.toDigits 10 n).length > 1 && (Nat.toDigits 10 n).head? == some '0') =
      false := by
    rcases Nat.eq_zero_or_pos n with rfl | hpos
    · rfl
    · simp [Decimal.head?_toDigits hpos]
  have hfraction : scanFraction rest = some ([], rest) := by
    unfold scanFraction
    split
    · exact absurd rfl (h '.' rfl).2.1
    · rfl
  have hexponent : scanExponent rest = some ([], rest) := by
    unfold scanExponent
    split
    · rfl
    · rename_i c tail
      obtain ⟨-, -, hlower, hupper⟩ := h c rfl
      rw [if_neg (by simp [hlower, hupper])]
  unfold scanUnsigned
  rw [hspan]
  split
  · rename_i hnil
    exact absurd (Prod.mk.inj hnil).1 Nat.toDigits_ne_nil
  · rename_i heq
    obtain ⟨rfl, rfl⟩ := Prod.mk.inj heq
    rw [hzero, hfraction]
    simp only [Bool.false_eq_true, if_false]
    rw [hexponent]

/-- Nothing but a number starts like one. -/
theorem scanToken_number {c : Char} {cs : List Char} (h : c.isDigit = true ∨ c = '-') :
    scanToken (c :: cs) = (scanNumber (c :: cs)).map fun r => (.scalar r.1, r.2) := by
  unfold scanToken
  split <;> simp_all

theorem numberValue_toDigits (n : Nat) : numberValue false (Nat.toDigits 10 n) [] [] = .int n := by
  simp [numberValue, Decimal.value_toDigits]

theorem numberValue_neg_toDigits {n : Nat} (h : 0 < n) :
    numberValue true (Nat.toDigits 10 n) [] [] = .int (-n) := by
  simp [numberValue, Decimal.value_toDigits, Nat.ne_of_gt h]

theorem scanNumber_toDigits (n : Nat) (rest : List Char) :
    scanNumber (Nat.toDigits 10 n ++ rest) = scanUnsigned false (Nat.toDigits 10 n ++ rest) := by
  unfold scanNumber
  split
  · rename_i tail heq
    cases hdigits : Nat.toDigits 10 n with
    | nil => exact absurd hdigits Nat.toDigits_ne_nil
    | cons d ds =>
      have hd : d.isDigit = true :=
        Nat.isDigit_of_mem_toDigits (by decide) (by decide) (hdigits ▸ List.mem_cons_self)
      rw [hdigits] at heq
      cases heq
      cases hd
  · rfl

theorem scanToken_toDigits (n : Nat) {rest : List Char} (h : Ends rest) :
    scanToken (Nat.toDigits 10 n ++ rest) = some (.scalar (.int n), rest) := by
  have hscan := scanUnsigned_toDigits false n h
  rw [← scanNumber_toDigits, numberValue_toDigits] at hscan
  cases hdigits : Nat.toDigits 10 n with
  | nil => exact absurd hdigits Nat.toDigits_ne_nil
  | cons d ds =>
    have hd : d.isDigit = true :=
      Nat.isDigit_of_mem_toDigits (by decide) (by decide) (hdigits ▸ List.mem_cons_self)
    rw [hdigits, List.cons_append] at hscan
    rw [List.cons_append, scanToken_number (.inl hd), hscan, Option.map_some]

theorem scanToken_int (n : Int) {rest : List Char} (h : Ends rest) :
    scanToken ((toString n).toList ++ rest) = some (.scalar (.int n), rest) := by
  rw [Int.toString_eq_repr, Int.repr_eq_if]
  split
  · rename_i hnonneg
    rw [Nat.toList_repr, scanToken_toDigits _ h, Int.toNat_of_nonneg hnonneg]
  · rename_i hneg
    have hscan := scanUnsigned_toDigits true (-n).toNat h
    rw [numberValue_neg_toDigits (by omega), Int.toNat_of_nonneg (by omega), Int.neg_neg] at hscan
    have hminus : scanToken ('-' :: (Nat.toDigits 10 (-n).toNat ++ rest)) =
        (scanUnsigned true (Nat.toDigits 10 (-n).toNat ++ rest)).map fun r => (.scalar r.1, r.2) :=
      scanToken_number (.inr rfl)
    rw [String.toList_append, Nat.toList_repr]
    exact hminus.trans (by rw [hscan, Option.map_some])

/-! ### Texts -/

theorem hexValue?_digitChar {n : Nat} (h : n < 16) : hexValue? (Nat.digitChar n) = some n := by
  revert n
  decide

theorem hexUnit?_hex4 {n : Nat} (h : n < 65536) :
    hexUnit? (Nat.digitChar (n / 4096 % 16)) (Nat.digitChar (n / 256 % 16))
      (Nat.digitChar (n / 16 % 16)) (Nat.digitChar (n % 16)) = some n := by
  have hdigit (m : Nat) : hexValue? (Nat.digitChar (m % 16)) = some (m % 16) :=
    hexValue?_digitChar (Nat.mod_lt _ (by decide))
  simp only [hexUnit?, hdigit, Option.bind_eq_bind, Option.bind_some, Option.pure_def,
    Option.some.injEq]
  omega

/-- Whether a text does not go on like an escape by number that is none. -/
def Sound (rest : List Char) : Prop :=
  ∀ a b c d tail, rest = '\\' :: 'u' :: a :: b :: c :: d :: tail → (hexUnit? a b c d).isSome = true

/-- A character that is escaped by its number. -/
theorem scanQuoted_unit (done : List Char) {a b c d : Char} {n : Nat} {rest : List Char}
    (hunit : hexUnit? a b c d = some n) (hlow : n < 0xD800) (h : Sound rest) :
    scanQuoted done ('\\' :: 'u' :: a :: b :: c :: d :: rest) =
      scanQuoted (Char.ofNat n :: done) rest := by
  have hhi : isHighSurrogate n = false := by simp [isHighSurrogate]; omega
  have hlo : isLowSurrogate n = false := by simp [isLowSurrogate]; omega
  rw [scanQuoted.eq_def]
  split
  · rename_i heq
    cases heq
  · rename_i heq
    cases heq
  · rename_i heq
    cases heq
    -- another escape by number follows, which stays to be read
    obtain ⟨m, hm⟩ := Option.isSome_iff_exists.1 (h _ _ _ _ _ rfl)
    rw [hunit, hm]
    simp only [hhi, hlo, Bool.false_eq_true, if_false]
  · rename_i heq
    cases heq
    rw [hunit]
    simp only [hhi, hlo, Bool.or_self, Bool.false_eq_true, if_false]
  · rename_i hnone heq
    cases heq
    exact (hnone a b c d rest rfl rfl).elim
  · rename_i hnone heq
    cases heq
    exact (hnone 'u' _ rfl rfl).elim

theorem scanQuoted_letter (done : List Char) {letter c : Char} (hletter : letter ≠ 'u')
    (hc : simpleEscape? letter = some c) (rest : List Char) :
    scanQuoted done ('\\' :: letter :: rest) = scanQuoted (c :: done) rest := by
  rw [scanQuoted.eq_def]
  split
  all_goals
    rename_i heq
    cases heq
  · exact absurd rfl hletter
  · exact absurd rfl hletter
  · rw [hc]
  · rename_i hnone
    exact (hnone letter rest rfl rfl).elim

theorem scanQuoted_plain (done : List Char) {c : Char} (hquote : c ≠ '"') (hbackslash : c ≠ '\\')
    (hcontrol : ¬c.toNat < 32) (rest : List Char) :
    scanQuoted done (c :: rest) = scanQuoted (c :: done) rest := by
  rw [scanQuoted.eq_def]
  split
  all_goals
    rename_i heq
    cases heq
  · exact absurd rfl hquote
  · exact absurd rfl hbackslash
  · exact absurd rfl hbackslash
  · exact absurd rfl hbackslash
  · rw [if_neg hcontrol]

/-- A character is written by an escape letter, by its number or as it is. -/
theorem escapeChar_cases (c : Char) :
    (∃ letter, letter ≠ 'u' ∧ simpleEscape? letter = some c ∧
      (escapeChar c).toList = ['\\', letter]) ∨
    (c.toNat < 32 ∧ (escapeChar c).toList = '\\' :: 'u' :: (hex4 c.toNat).toList) ∨
    (c ≠ '"' ∧ c ≠ '\\' ∧ ¬c.toNat < 32 ∧ (escapeChar c).toList = [c]) := by
  unfold escapeChar
  split
  · subst c; exact .inl ⟨'"', by decide, rfl, rfl⟩
  split
  · subst c; exact .inl ⟨'\\', by decide, rfl, rfl⟩
  split
  · subst c; exact .inl ⟨'n', by decide, rfl, rfl⟩
  split
  · subst c; exact .inl ⟨'r', by decide, rfl, rfl⟩
  split
  · subst c; exact .inl ⟨'t', by decide, rfl, rfl⟩
  split
  · subst c; exact .inl ⟨'b', by decide, rfl, rfl⟩
  split
  · subst c; exact .inl ⟨'f', by decide, rfl, rfl⟩
  split
  · rename_i hcontrol
    exact .inr (.inl ⟨hcontrol, by simp⟩)
  · rename_i hquote hbackslash _ _ _ _ _ hcontrol
    exact .inr (.inr ⟨hquote, hbackslash, hcontrol, String.toList_singleton c⟩)

theorem toList_hex4 (n : Nat) :
    (hex4 n).toList = [Nat.digitChar (n / 4096 % 16), Nat.digitChar (n / 256 % 16),
      Nat.digitChar (n / 16 % 16), Nat.digitChar (n % 16)] := String.toList_ofList

theorem scanQuoted_escapeChar (done : List Char) (c : Char) {rest : List Char} (h : Sound rest) :
    scanQuoted done ((escapeChar c).toList ++ rest) = scanQuoted (c :: done) rest := by
  rcases escapeChar_cases c with ⟨letter, hletter, hc, heq⟩ | ⟨hcontrol, heq⟩ |
    ⟨hquote, hbackslash, hcontrol, heq⟩ <;> rw [heq]
  · exact scanQuoted_letter done hletter hc rest
  · have hunit := hexUnit?_hex4 (show c.toNat < 65536 by omega)
    have hstep := scanQuoted_unit done hunit (by omega) h
    rw [Char.ofNat_toNat] at hstep
    rw [toList_hex4]
    exact hstep
  · exact scanQuoted_plain done hquote hbackslash hcontrol rest

/-- No character is written like an escape by number that is none. -/
theorem sound_escapeChar (c : Char) (rest : List Char) : Sound ((escapeChar c).toList ++ rest) := by
  intro a₁ a₂ a₃ a₄ tail hrest
  rcases escapeChar_cases c with ⟨letter, hletter, -, heq⟩ | ⟨hcontrol, heq⟩ |
    ⟨-, hbackslash, -, heq⟩ <;> rw [heq] at hrest
  · cases hrest
    exact absurd rfl hletter
  · rw [toList_hex4] at hrest
    cases hrest
    rw [hexUnit?_hex4 (show c.toNat < 65536 by omega)]
    rfl
  · cases hrest
    exact absurd rfl hbackslash

def escaped (l : List Char) : List Char := l.flatMap fun c => (escapeChar c).toList

theorem sound_escaped (l tail : List Char) : Sound (escaped l ++ '"' :: tail) := by
  cases l with
  | nil => nofun
  | cons c rest =>
    rw [escaped, List.flatMap_cons, List.append_assoc]
    exact sound_escapeChar c _

theorem scanQuoted_escaped (done l tail : List Char) :
    scanQuoted done (escaped l ++ '"' :: tail) = some (done.reverse ++ l, tail) := by
  induction l generalizing done with
  | nil => simp [escaped, scanQuoted]
  | cons c rest ih =>
    have hstep := scanQuoted_escapeChar done c (sound_escaped rest tail)
    rw [ih, List.reverse_cons, List.append_assoc, List.singleton_append] at hstep
    rw [escaped, List.flatMap_cons, List.append_assoc]
    exact hstep

theorem toList_quote (s : String) : (quote s).toList = '"' :: (escaped s.toList ++ ['"']) := by
  have hgrows (l : List Char) (out : String) :
      (l.foldl (fun out c => out ++ escapeChar c) out).toList = out.toList ++ escaped l := by
    induction l generalizing out with
    | nil => simp [escaped]
    | cons c rest ih => rw [List.foldl_cons, ih]; simp [escaped]
  rw [quote, String.foldl_eq_foldl_toList, String.toList_append, hgrows]
  simp

theorem scanToken_quote (s : String) (rest : List Char) :
    scanToken ((quote s).toList ++ rest) = some (.scalar (.str s), rest) := by
  have hscan := scanQuoted_escaped [] s.toList rest
  rw [toList_quote, List.cons_append, List.append_assoc, List.singleton_append, scanToken, hscan]
  simp

/-! ### Values and their tokens -/

inductive Integral : Json → Prop where
  | null : Integral .null
  | bool (b : Bool) : Integral (.bool b)
  | int (n : Int) : Integral (.int n)
  | str (s : String) : Integral (.str s)
  | arr {elements : List Json} : (∀ j ∈ elements, Integral j) → Integral (.arr elements)
  | obj {members : List (String × Json)} : (∀ m ∈ members, Integral m.2) → Integral (.obj members)

mutual

def tokens : Json → List Token
  | .arr elements => .openArray :: (elementTokens elements ++ [.closeArray])
  | .obj members => .openObject :: (memberTokens members ++ [.closeObject])
  | j => [.scalar j]

def elementTokens : List Json → List Token
  | [] => []
  | [j] => tokens j
  | j :: rest => tokens j ++ .comma :: elementTokens rest

def memberTokens : List (String × Json) → List Token
  | [] => []
  | [(name, j)] => .scalar (.str name) :: .colon :: tokens j
  | (name, j) :: rest => .scalar (.str name) :: .colon :: (tokens j ++ .comma :: memberTokens rest)

end

theorem scan_nil : scan [] = some [] := by
  rw [scan]
  rfl

theorem isBlank_of_scanToken {c : Char} {cs : List Char} {r : Token × List Char}
    (h : scanToken (c :: cs) = some r) : isBlank c = false := by
  rw [← Bool.not_eq_true]
  intro hblank
  simp only [isBlank, Bool.or_eq_true, beq_iff_eq] at hblank
  rcases hblank with ((rfl | rfl) | rfl) | rfl <;> cases h

/-- A token at the front is scanned first. -/
theorem scan_token {cs rest : List Char} {t : Token} (h : scanToken cs = some (t, rest)) :
    scan cs = (scan rest).map (t :: ·) := by
  cases cs with
  | nil => cases h
  | cons c cs =>
    have hdrop : (c :: cs).dropWhile isBlank = c :: cs := by
      rw [List.dropWhile_cons_of_neg]
      rw [isBlank_of_scanToken h]
      exact Bool.false_ne_true
    rw [scan]
    split <;> rename_i heq <;> rw [hdrop] at heq <;> cases heq
    split <;> rename_i htoken <;> rw [h] at htoken <;> cases htoken
    rfl

/-- What scanning a value with something behind it comes down to. -/
def Scanned (j : Json) : Prop :=
  ∀ {rest : List Char}, Ends rest →
    scan ((render j).toList ++ rest) = (scan rest).map (tokens j ++ ·)

theorem scan_elements {l : List Json} (hl : ∀ j ∈ l, Scanned j) {rest : List Char}
    (h : Ends rest) :
    scan ((renderElements l).toList ++ rest) = (scan rest).map (elementTokens l ++ ·) := by
  induction l with
  | nil => simp [renderElements, elementTokens]
  | cons j tail ih =>
    obtain ⟨hj, htail⟩ := List.forall_mem_cons.1 hl
    cases tail with
    | nil => exact hj h
    | cons j' tail =>
      have hcomma : scan (',' :: ((renderElements (j' :: tail)).toList ++ rest)) = _ :=
        scan_token rfl
      have hfront := hj (ends_cons ',' (by decide) ((renderElements (j' :: tail)).toList ++ rest))
      rw [hcomma, ih htail] at hfront
      simpa [renderElements, elementTokens, Function.comp_def] using hfront

/-- The name of a member is scanned together with its colon. -/
theorem scan_name (name : String) (cs : List Char) :
    scan ((quote name).toList ++ ':' :: cs) =
      (scan cs).map fun ts => .scalar (.str name) :: .colon :: ts := by
  have hcolon : scan (':' :: cs) = (scan cs).map (.colon :: ·) := scan_token rfl
  rw [scan_token (scanToken_quote name _), hcolon, Option.map_map]
  rfl

theorem scan_members {l : List (String × Json)} (hl : ∀ m ∈ l, Scanned m.2) {rest : List Char}
    (h : Ends rest) :
    scan ((renderMembers l).toList ++ rest) = (scan rest).map (memberTokens l ++ ·) := by
  induction l with
  | nil => simp [renderMembers, memberTokens]
  | cons m tail ih =>
    obtain ⟨hm, htail⟩ := List.forall_mem_cons.1 hl
    obtain ⟨name, j⟩ := m
    cases tail with
    | nil =>
      have hname := scan_name name ((render j).toList ++ rest)
      rw [hm h] at hname
      simpa [renderMembers, memberTokens, Function.comp_def] using hname
    | cons m' tail =>
      have hcomma : scan (',' :: ((renderMembers (m' :: tail)).toList ++ rest)) = _ :=
        scan_token rfl
      have hfront := hm (ends_cons ',' (by decide) ((renderMembers (m' :: tail)).toList ++ rest))
      rw [hcomma, ih htail] at hfront
      have hname := scan_name name
        ((render j).toList ++ ',' :: ((renderMembers (m' :: tail)).toList ++ rest))
      rw [hfront] at hname
      simpa [renderMembers, memberTokens, Function.comp_def] using hname

/-- The text of a value is scanned into its tokens. -/
theorem Integral.scanned {j : Json} (h : j.Integral) : j.Scanned := by
  induction h with
  | null => exact fun _ => scan_token rfl
  | bool b => cases b <;> exact fun _ => scan_token rfl
  | int n => exact fun h => scan_token (scanToken_int n h)
  | str s => exact fun _ => scan_token (scanToken_quote s _)
  | @arr elements _ ih =>
    intro rest _
    have hopen : scan ('[' :: ((renderElements elements).toList ++ ']' :: rest)) = _ :=
      scan_token rfl
    have hclose : scan (']' :: rest) = _ := scan_token rfl
    rw [scan_elements ih (ends_cons ']' (by decide) rest), hclose] at hopen
    simpa [render, tokens, Function.comp_def] using hopen
  | @obj members _ ih =>
    intro rest _
    have hopen : scan ('\x7b' :: ((renderMembers members).toList ++ '\x7d' :: rest)) = _ :=
      scan_token rfl
    have hclose : scan ('\x7d' :: rest) = _ := scan_token rfl
    rw [scan_members ih (ends_cons '\x7d' (by decide) rest), hclose] at hopen
    simpa [render, tokens, Function.comp_def] using hopen

/-! ### Tokens and the values they are read as -/

def Read (j : Json) : Prop :=
  ∀ (rest : List Token) (stack : List Frame),
    readTokens (tokens j ++ rest) .value stack = readTokens rest (.after j) stack

/-- Where an array may end at once, a value is read as it is elsewhere. -/
theorem readTokens_valueOrClose (j : Json) (l : List Json) (rest : List Token)
    (stack : List Frame) :
    readTokens (elementTokens (j :: l) ++ rest) .valueOrClose stack =
      readTokens (elementTokens (j :: l) ++ rest) .value stack := by
  cases l <;> cases j <;> rfl

theorem read_elements {j : Json} {l : List Json} (hl : ∀ e ∈ j :: l, Read e) (done : List Json)
    (rest : List Token) (stack : List Frame) :
    readTokens (elementTokens (j :: l) ++ .closeArray :: rest) .value (.arr done :: stack) =
      readTokens rest (.after (.arr (done.reverse ++ j :: l))) stack := by
  induction l generalizing j done with
  | nil =>
    have hj := hl j List.mem_cons_self
    rw [elementTokens, hj, readTokens]
    simp
  | cons j' tail ih =>
    obtain ⟨hj, htail⟩ := List.forall_mem_cons.1 hl
    rw [elementTokens, List.append_assoc, hj, List.cons_append, readTokens, ih htail]
    · simp
    · nofun

/-- Where an object may end at once, a name is read as it is elsewhere. -/
theorem readTokens_nameOrClose (m : String × Json) (l : List (String × Json)) (rest : List Token)
    (stack : List Frame) :
    readTokens (memberTokens (m :: l) ++ rest) .nameOrClose stack =
      readTokens (memberTokens (m :: l) ++ rest) (.name []) stack := by
  cases l <;> rfl

theorem read_members {m : String × Json} {l : List (String × Json)}
    (hl : ∀ e ∈ m :: l, Read e.2) (done : List (String × Json)) (rest : List Token)
    (stack : List Frame) :
    readTokens (memberTokens (m :: l) ++ .closeObject :: rest) (.name done) stack =
      readTokens rest (.after (.obj (done.reverse ++ m :: l))) stack := by
  induction l generalizing m done with
  | nil =>
    have hm := hl m List.mem_cons_self
    rw [memberTokens, List.cons_append, List.cons_append, readTokens, readTokens, hm, readTokens]
    simp
  | cons m' tail ih =>
    obtain ⟨hm, htail⟩ := List.forall_mem_cons.1 hl
    rw [memberTokens, List.cons_append, List.cons_append, List.append_assoc, readTokens, readTokens,
      hm, List.cons_append, readTokens, ih htail]
    · simp
    · nofun

/-- The tokens of a value are read as the value. -/
theorem Integral.read {j : Json} (h : j.Integral) : j.Read := by
  induction h with
  | null | bool _ | int _ | str _ => exact fun _ _ => rfl
  | @arr elements _ ih =>
    intro rest stack
    cases elements with
    | nil => rfl
    | cons j l =>
      have hread := read_elements ih [] rest stack
      rw [← readTokens_valueOrClose] at hread
      rw [tokens, List.cons_append, List.append_assoc]
      exact hread
  | @obj members _ ih =>
    intro rest stack
    cases members with
    | nil => rfl
    | cons m l =>
      have hread := read_members ih [] rest stack
      rw [← readTokens_nameOrClose] at hread
      rw [tokens, List.cons_append, List.append_assoc]
      exact hread

/-- A value that is written is read back from its text. -/
theorem Integral.parse?_render {j : Json} (h : j.Integral) : parse? j.render = some j := by
  have hscan := h.scanned ends_nil
  have hread := h.read [] []
  rw [List.append_nil] at hscan hread
  rw [parse?, hscan, scan_nil]
  simpa [readTokens] using hread

end Json

end PodFirewall
