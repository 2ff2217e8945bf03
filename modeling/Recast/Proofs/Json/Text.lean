import Recast.Json.Printer
import Recast.Json.Reader

/-! # Reading what was printed

The text of a value is read back as the value, as long as it is not nested too deep. The text is
first cut into tokens and the tokens are then put together, and both steps are followed along the
value: its text lexes to its tokens whatever comes behind them, and its tokens are read as the
value.
-/
namespace Recast.Json

/-! ## Strings -/

theorem hexUnit_hexChar {n : Nat} (h : n < 0x20) :
    hexUnit '0' '0' (hexChar (n / 16)) (hexChar (n % 16)) = some n := by
  have hall : ∀ n < 0x20, hexUnit '0' '0' (hexChar (n / 16)) (hexChar (n % 16)) = some n := by
    decide
  exact hall n h

theorem pieces_unit {a b c d : Char} {n : Nat} (h : hexUnit a b c d = some n) (cs : List Char) :
    pieces ('\\' :: 'u' :: a :: b :: c :: d :: cs) =
      (pieces cs).map fun r => (.unit n :: r.1,r.2) := by
  rw [pieces.eq_3, h]
  cases pieces cs <;> rfl

theorem pieces_escape {e c : Char} (hu : e ≠ 'u') (h : simpleEscape e = some c) (cs : List Char) :
    pieces ('\\' :: e :: cs) = (pieces cs).map fun r => (.char c :: r.1,r.2) := by
  rw [pieces.eq_4, h]
  · cases pieces cs <;> rfl
  · intro _ _ _ _ _ he
    exact absurd he hu

theorem pieces_char {c : Char} (hquote : c ≠ '"') (hescape : c ≠ '\\')
    (hcontrol : ¬ c.toNat < 0x20) (cs : List Char) :
    pieces (c :: cs) = (pieces cs).map fun r => (.char c :: r.1,r.2) := by
  rw [pieces.eq_5 c cs hquote, if_neg hcontrol]
  · cases pieces cs <;> rfl
  · intro _ _ _ _ _ hc
    exact absurd hc hescape
  · intro _ _ hc
    exact absurd hc hescape

/-- A character is escaped by name or by number, or stands for itself. -/
theorem escapeChar_cases (c : Char) :
    (∃ e, e ≠ 'u' ∧ simpleEscape e = some c ∧ escapeChar c = ['\\',e]) ∨
      (c.toNat < 0x20 ∧
        escapeChar c = ['\\','u','0','0',hexChar (c.toNat / 16),hexChar (c.toNat % 16)]) ∨
      (c ≠ '"' ∧ c ≠ '\\' ∧ ¬ c.toNat < 0x20 ∧ escapeChar c = [c]) := by
  have hnamed {e d : Char} (hu : e ≠ 'u') (hd : simpleEscape e = some d) (hc : (c == d) = true) :
      ∃ e', e' ≠ 'u' ∧ simpleEscape e' = some c ∧ ['\\',e] = ['\\',e'] :=
    ⟨e,hu,by rw [hd, beq_iff_eq.mp hc],rfl⟩
  unfold escapeChar
  split
  · next hc => exact .inl (hnamed (by decide) rfl hc)
  · next hquote =>
    split
    · next hc => exact .inl (hnamed (by decide) rfl hc)
    · next hescape =>
      split
      · next hc => exact .inl (hnamed (by decide) rfl hc)
      · split
        · next hc => exact .inl (hnamed (by decide) rfl hc)
        · split
          · next hc => exact .inl (hnamed (by decide) rfl hc)
          · split
            · next hc => exact .inl (hnamed (by decide) rfl hc)
            · split
              · next hc => exact .inl (hnamed (by decide) rfl hc)
              · split
                · next hcontrol => exact .inr (.inl ⟨hcontrol,rfl⟩)
                · next hcontrol =>
                  simp only [beq_iff_eq] at hquote hescape
                  exact .inr (.inr ⟨hquote,hescape,hcontrol,rfl⟩)

theorem assemble_unit {n : Nat} (h : n < 0x20) (ps : List Piece) :
    assemble (.unit n :: ps) = (assemble ps).map (Char.ofNat n :: ·) := by
  have hhigh : isHigh n = false := by
    rw [isHigh, Bool.and_eq_false_iff]
    left
    rw [decide_eq_false_iff_not]
    omega
  have hlow : isLow n = false := by
    rw [isLow, Bool.and_eq_false_iff]
    left
    rw [decide_eq_false_iff_not]
    omega
  rw [assemble.eq_def]
  dsimp only
  rw [hhigh, hlow]
  rfl

/-- A written character is one piece, and the piece stands for the character. -/
theorem exists_piece (c : Char) : ∃ p,
    (∀ cs, pieces (escapeChar c ++ cs) = (pieces cs).map fun r => (p :: r.1,r.2)) ∧
      ∀ ps, assemble (p :: ps) = (assemble ps).map (c :: ·) := by
  rcases escapeChar_cases c with ⟨e,hu,he,hc⟩ | ⟨hcontrol,hc⟩ | ⟨hquote,hescape,hcontrol,hc⟩
  · refine ⟨.char c,fun cs => ?_,fun ps => rfl⟩
    rw [hc]
    exact pieces_escape hu he cs
  · refine ⟨.unit c.toNat,fun cs => ?_,fun ps => ?_⟩
    · rw [hc]
      exact pieces_unit (hexUnit_hexChar hcontrol) cs
    · rw [assemble_unit hcontrol, Char.ofNat_toNat]
  · refine ⟨.char c,fun cs => ?_,fun ps => rfl⟩
    rw [hc]
    exact pieces_char hquote hescape hcontrol cs

theorem exists_pieces (s : List Char) : ∃ ps,
    (∀ rest, pieces (s.flatMap escapeChar ++ '"' :: rest) = some (ps,rest)) ∧
      assemble ps = some s := by
  induction s with
  | nil => exact ⟨[],fun _ => rfl,rfl⟩
  | cons c s ih =>
    obtain ⟨p,hp,hchar⟩ := exists_piece c
    obtain ⟨ps,hps,hs⟩ := ih
    refine ⟨p :: ps,fun rest => ?_,?_⟩
    · rw [List.flatMap_cons, List.append_assoc, hp, hps]
      rfl
    · rw [hchar, hs]
      rfl

/-! ## Numbers -/

theorem isDigit_of_mem_toDigits {n : Nat} {c : Char} (h : c ∈ Nat.toDigits 10 n) :
    isDigit c = true := Nat.isDigit_of_mem_toDigits (by decide) (by decide) h

theorem digitsValue_toDigits (n : Nat) : digitsValue (Nat.toDigits 10 n) = n := by
  have hvalue := Nat.ofDigitChars_ten_toDigits (n := n)
  simp only [Nat.ofDigitChars_eq_foldl, Nat.mul_comm 10] at hvalue
  exact hvalue

/-- Only the number zero starts with a zero. -/
theorem head?_toDigits_ne {n : Nat} (h : n ≠ 0) : (Nat.toDigits 10 n).head? ≠ some '0' := by
  induction n using Nat.strongRecOn with
  | ind n ih =>
    by_cases hlt : n < 10
    · have hall : ∀ n < 10, n ≠ 0 → [Nat.digitChar n].head? ≠ some '0' := by decide
      rw [Nat.toDigits_of_lt_base hlt]
      exact hall n hlt h
    · have hne := ih (n / 10) (by omega) (by omega)
      rw [Nat.toDigits_of_base_le (by decide) (by omega)]
      cases hdigits : Nat.toDigits 10 (n / 10) with
      | nil => exact absurd hdigits Nat.toDigits_ne_nil
      | cons d ds => rwa [hdigits] at hne

/-- What can stand behind a number. -/
def Ends (rest : List Char) : Prop :=
  ∀ c ∈ rest.head?, isDigit c = false ∧ c ≠ '.' ∧ c ≠ 'e' ∧ c ≠ 'E'

theorem fractionPart_of_ends {rest : List Char} (h : Ends rest) :
    fractionPart rest = some ([],rest) := by
  unfold fractionPart
  split
  · next rest =>
    exact absurd rfl (h '.' rfl).2.1
  · rfl

theorem exponentPart_of_ends {rest : List Char} (h : Ends rest) :
    exponentPart rest = some ([],rest) := by
  cases rest with
  | nil => rfl
  | cons c rest =>
    obtain ⟨-,-,he,hE⟩ := h c rfl
    simp [exponentPart, he, hE]

theorem digits_toDigits (n : Nat) {rest : List Char} (h : Ends rest) :
    digits (Nat.toDigits 10 n ++ rest) = some (Nat.toDigits 10 n,rest) := by
  have hdigits : ∀ c ∈ Nat.toDigits 10 n, isDigit c = true := fun c hc => isDigit_of_mem_toDigits hc
  have hrest : rest.takeWhile isDigit = [] ∧ rest.dropWhile isDigit = rest := by
    cases rest with
    | nil => exact ⟨rfl,rfl⟩
    | cons c rest => simp [(h c rfl).1]
  unfold digits
  rw [List.takeWhile_append_of_pos hdigits, List.dropWhile_append_of_pos hdigits, hrest.1,
    hrest.2, List.append_nil]
  split
  · next hnil => exact absurd hnil Nat.toDigits_ne_nil
  · rfl

theorem integerPart_toDigits (n : Nat) {rest : List Char} (h : Ends rest) :
    integerPart (Nat.toDigits 10 n ++ rest) = some (Nat.toDigits 10 n,rest) := by
  by_cases hn : n = 0
  · subst hn
    rfl
  · unfold integerPart
    split
    · next more hzero =>
      have hhead := head?_toDigits_ne hn
      cases hdigits : Nat.toDigits 10 n with
      | nil => exact absurd hdigits Nat.toDigits_ne_nil
      | cons d ds =>
        rw [hdigits] at hhead hzero
        exact absurd (congrArg some (List.cons.inj hzero).1) hhead
    · exact digits_toDigits n h

theorem numeral_toDigits (n : Nat) {rest : List Char} (h : Ends rest) :
    numeral (Nat.toDigits 10 n ++ rest) = some (Nat.toDigits 10 n,rest) := by
  have hsign : ∀ more, Nat.toDigits 10 n ++ rest ≠ '-' :: more := by
    intro more heq
    cases hdigits : Nat.toDigits 10 n with
    | nil => exact absurd hdigits Nat.toDigits_ne_nil
    | cons d ds =>
      have hd : isDigit d = true := isDigit_of_mem_toDigits (hdigits ▸ List.mem_cons_self)
      rw [hdigits] at heq
      rw [(List.cons.inj heq).1] at hd
      cases hd
  unfold numeral
  split
  · next sign cs heq =>
    split at heq
    · next more hminus => exact absurd hminus (hsign more)
    · cases heq
      rw [integerPart_toDigits n h]
      show (do
        let x ← fractionPart rest
        let y ← exponentPart x.2
        pure ([] ++ Nat.toDigits 10 n ++ x.1 ++ y.1,y.2)) = _
      rw [fractionPart_of_ends h]
      show (do
        let y ← exponentPart rest
        pure ([] ++ Nat.toDigits 10 n ++ [] ++ y.1,y.2)) = _
      rw [exponentPart_of_ends h]
      simp

theorem numberValue_toDigits {n : Nat} (h : n < naturalLimit) :
    numberValue (Nat.toDigits 10 n) = some (.natural n) := by
  have hall : (Nat.toDigits 10 n).all isDigit = true :=
    List.all_eq_true.mpr fun c hc => isDigit_of_mem_toDigits hc
  simp [numberValue, hall, digitsValue_toDigits, h]

/-! ## Tokens -/

mutual

/-- The tokens of a value. -/
def tokensOf : Json → List Token
  | .null => [.null]
  | .bool b => [.bool b]
  | .natural n => [.number (Nat.toDigits 10 n)]
  | .decimal text => [.number text.toList]
  | .string s => [.string (some s)]
  | .array [] => [.openBracket,.closeBracket]
  | .array (j :: js) => .openBracket :: (tokensOf j ++ itemTokens js)
  | .object [] => [.openBrace,.closeBrace]
  | .object ((key,j) :: fs) =>
    .openBrace :: .string (some key) :: .colon :: (tokensOf j ++ fieldTokens fs)

/-- The tokens behind the first items of an array. -/
def itemTokens : List Json → List Token
  | [] => [.closeBracket]
  | j :: js => .comma :: (tokensOf j ++ itemTokens js)

/-- The tokens behind the first members of an object. -/
def fieldTokens : List (String × Json) → List Token
  | [] => [.closeBrace]
  | (key,j) :: fs => .comma :: .string (some key) :: .colon :: (tokensOf j ++ fieldTokens fs)

end

mutual

/-- All numbers are natural and below the limit. -/
def Plain : Json → Prop
  | .natural n => n < naturalLimit
  | .decimal _ => False
  | .array items => PlainItems items
  | .object fields => PlainFields fields
  | _ => True

def PlainItems : List Json → Prop
  | [] => True
  | j :: js => Plain j ∧ PlainItems js

def PlainFields : List (String × Json) → Prop
  | [] => True
  | (_,j) :: fs => Plain j ∧ PlainFields fs

end

theorem token_of_isDigit {c : Char} (h : isDigit c = true) (cs : List Char) :
    token c cs = (numeral (c :: cs)).map fun r => (.number r.1,r.2) := by
  unfold token
  split
  case h_11 => rfl
  all_goals exact absurd h (by decide)

theorem isSpace_of_isDigit {c : Char} (h : isDigit c = true) : isSpace c = false := by
  rw [Bool.eq_false_iff]
  intro hspace
  simp only [isSpace, Bool.or_eq_true, beq_iff_eq] at hspace
  rcases hspace with ((rfl | rfl) | rfl) | rfl
  all_goals exact absurd h (by decide)

/-- The text is cut into the tokens, of which it has no more than characters. -/
def Lexes (cs : List Char) (ts : List Token) : Prop :=
  ts.length ≤ cs.length ∧ ∀ fuel, ts.length ≤ fuel → tokensUpTo fuel cs = some ts

namespace Lexes
variable {cs rest : List Char} {ts : List Token} {t : Token} {c : Char}

theorem nil : Lexes [] [] := by
  refine ⟨Nat.le_refl 0,fun fuel _ => ?_⟩
  cases fuel <;> rfl

theorem cons (hspace : isSpace c = false) (htoken : token c cs = some (t,rest))
    (hsuffix : rest <:+ cs) (h : Lexes rest ts) : Lexes (c :: cs) (t :: ts) := by
  obtain ⟨hle,hrest⟩ := h
  refine ⟨Nat.succ_le_succ (Nat.le_trans hle hsuffix.length_le),fun fuel hfuel => ?_⟩
  cases fuel with
  | zero => cases hfuel
  | succ fuel =>
    have hdrop : (c :: cs).dropWhile isSpace = c :: cs := by simp [hspace]
    unfold tokensUpTo
    rw [hdrop]
    dsimp only
    rw [htoken]
    show (tokensUpTo fuel rest).bind (fun ts => some (t :: ts)) = _
    rw [hrest fuel (Nat.le_of_succ_le_succ hfuel)]
    rfl

theorem string (s : String) (h : Lexes rest ts) :
    Lexes ((stringLiteral s).toList ++ rest) (.string (some s) :: ts) := by
  obtain ⟨ps,hps,hs⟩ := exists_pieces s.toList
  have htoken : token '"' (s.toList.flatMap escapeChar ++ '"' :: rest) =
      some (.string (some s),rest) := by
    show (pieces _).map _ = _
    rw [hps, Option.map_some]
    dsimp only
    rw [hs, Option.map_some, String.ofList_toList]
  have hchars : (stringLiteral s).toList ++ rest =
      '"' :: (s.toList.flatMap escapeChar ++ '"' :: rest) := by
    simp [stringLiteral]
  rw [hchars]
  exact cons rfl htoken ((List.suffix_cons _ rest).trans (List.suffix_append _ _)) h

theorem natural (n : Nat) (hends : Ends rest) (h : Lexes rest ts) :
    Lexes ((toString n).toList ++ rest) (.number (Nat.toDigits 10 n) :: ts) := by
  rw [Nat.toString_eq_repr, Nat.toList_repr]
  have hnumeral := numeral_toDigits n hends
  cases hdigits : Nat.toDigits 10 n with
  | nil => exact absurd hdigits Nat.toDigits_ne_nil
  | cons d ds =>
    have hd : isDigit d = true := isDigit_of_mem_toDigits (hdigits ▸ List.mem_cons_self)
    rw [hdigits] at hnumeral
    have htoken : token d (ds ++ rest) = some (.number (d :: ds),rest) := by
      rw [token_of_isDigit hd]
      show (numeral (d :: ds ++ rest)).map _ = _
      rw [hnumeral]
      rfl
    exact cons (isSpace_of_isDigit hd) htoken (List.suffix_append ds rest) h

end Lexes

/-- The characters of texts that are all led by a comma. -/
def listed (texts : List String) : List Char := texts.flatMap fun text => ',' :: text.toList

theorem intercalate_eq_listed (cs : List Char) (texts : List String) :
    [','].intercalate (cs :: texts.map String.toList) = cs ++ listed texts := by
  induction texts generalizing cs with
  | nil => simp [listed]
  | cons text texts ih =>
    rw [List.map_cons, List.intercalate_cons_cons, ih text.toList]
    simp [listed]

theorem ends_listed (texts : List String) {c : Char} {rest : List Char}
    (hc : isDigit c = false ∧ c ≠ '.' ∧ c ≠ 'e' ∧ c ≠ 'E') : Ends (listed texts ++ c :: rest) := by
  cases texts with
  | nil =>
    rintro _ ⟨⟩
    exact hc
  | cons text texts =>
    rintro _ ⟨⟩
    decide

mutual

/-- The text of a value lexes to its tokens. -/
theorem lexes_print : (j : Json) → j.Plain → {rest : List Char} → {ts : List Token} →
    Ends rest → Lexes rest ts → Lexes (j.print.toList ++ rest) (tokensOf j ++ ts)
  | .null, _, _, _, _, h => .cons rfl rfl ⟨['u','l','l'],rfl⟩ h
  | .bool true, _, _, _, _, h => .cons rfl rfl ⟨['r','u','e'],rfl⟩ h
  | .bool false, _, _, _, _, h => .cons rfl rfl ⟨['a','l','s','e'],rfl⟩ h
  | .natural n, _, _, _, hends, h => .natural n hends h
  | .string s, _, _, _, _, h => .string s h
  | .array [], _, rest, _, _, h =>
    .cons rfl rfl (List.suffix_refl (']' :: rest)) (.cons rfl rfl (List.suffix_refl rest) h)
  | .array (j :: js), hplain, rest, ts, _, h => by
    have hitem := lexes_print j hplain.1 (ends_listed (printItems js) (by decide))
      (lexes_items js hplain.2 h)
    have hchars : (print (.array (j :: js))).toList ++ rest =
        '[' :: (j.print.toList ++ (listed (printItems js) ++ ']' :: rest)) := by
      simp [print, printItems, intercalate_eq_listed]
    have htokens : tokensOf (.array (j :: js)) ++ ts =
        .openBracket :: (tokensOf j ++ (itemTokens js ++ ts)) := by simp [tokensOf]
    rw [hchars, htokens]
    exact .cons rfl rfl (List.suffix_refl _) hitem
  | .object [], _, rest, _, _, h =>
    .cons rfl rfl (List.suffix_refl ('\x7d' :: rest)) (.cons rfl rfl (List.suffix_refl rest) h)
  | .object ((key,j) :: fs), hplain, rest, ts, _, h => by
    have hvalue := lexes_print j hplain.1 (ends_listed (printFields fs) (by decide))
      (lexes_fields fs hplain.2 h)
    have hchars : (print (.object ((key,j) :: fs))).toList ++ rest =
        '\x7b' :: ((stringLiteral key).toList ++
          (':' :: (j.print.toList ++ (listed (printFields fs) ++ '\x7d' :: rest)))) := by
      simp [print, printFields, intercalate_eq_listed]
    have htokens : tokensOf (.object ((key,j) :: fs)) ++ ts =
        .openBrace :: .string (some key) :: .colon :: (tokensOf j ++ (fieldTokens fs ++ ts)) := by
      simp [tokensOf]
    rw [hchars, htokens]
    exact .cons rfl rfl (List.suffix_refl _)
      (.string key (.cons rfl rfl (List.suffix_refl _) hvalue))

theorem lexes_items : (js : List Json) → PlainItems js → {rest : List Char} → {ts : List Token} →
    Lexes rest ts → Lexes (listed (printItems js) ++ ']' :: rest) (itemTokens js ++ ts)
  | [], _, _, _, h => .cons rfl rfl (List.suffix_refl _) h
  | j :: js, hplain, rest, ts, h => by
    have hitem := lexes_print j hplain.1 (ends_listed (printItems js) (by decide))
      (lexes_items js hplain.2 h)
    have hchars : listed (printItems (j :: js)) ++ ']' :: rest =
        ',' :: (j.print.toList ++ (listed (printItems js) ++ ']' :: rest)) := by
      simp [printItems, listed]
    have htokens : itemTokens (j :: js) ++ ts =
        .comma :: (tokensOf j ++ (itemTokens js ++ ts)) := by simp [itemTokens]
    rw [hchars, htokens]
    exact .cons rfl rfl (List.suffix_refl _) hitem

theorem lexes_fields : (fs : List (String × Json)) → PlainFields fs → {rest : List Char} →
    {ts : List Token} → Lexes rest ts →
    Lexes (listed (printFields fs) ++ '\x7d' :: rest) (fieldTokens fs ++ ts)
  | [], _, _, _, h => .cons rfl rfl (List.suffix_refl _) h
  | (key,j) :: fs, hplain, rest, ts, h => by
    have hvalue := lexes_print j hplain.1 (ends_listed (printFields fs) (by decide))
      (lexes_fields fs hplain.2 h)
    have hchars : listed (printFields ((key,j) :: fs)) ++ '\x7d' :: rest =
        ',' :: ((stringLiteral key).toList ++
          (':' :: (j.print.toList ++ (listed (printFields fs) ++ '\x7d' :: rest)))) := by
      simp [printFields, listed]
    have htokens : fieldTokens ((key,j) :: fs) ++ ts =
        .comma :: .string (some key) :: .colon :: (tokensOf j ++ (fieldTokens fs ++ ts)) := by
      simp [fieldTokens]
    rw [hchars, htokens]
    exact .cons rfl rfl (List.suffix_refl _)
      (.string key (.cons rfl rfl (List.suffix_refl _) hvalue))

end

/-- All of the text of a value is cut into the tokens of the value. -/
theorem tokens_print {j : Json} (h : j.Plain) : tokens j.print = some (tokensOf j) := by
  have hends : Ends [] := fun _ hc => by cases hc
  have hlexes := lexes_print j h hends .nil
  rw [List.append_nil, List.append_nil] at hlexes
  exact hlexes.2 _ hlexes.1

/-! ## Values -/

mutual

/-- The outline wants all parts of the value. The items of an array are wanted whole. -/
def Outline.Covers : Outline → Json → Prop
  | o, .object fields => o.isSkipped = false ∧ CoversFields o fields
  | o, _ => o.isSkipped = false

def Outline.CoversFields : Outline → List (String × Json) → Prop
  | _, [] => True
  | o, (key,j) :: fs => (o.member key).Covers j ∧ CoversFields o fs

end

theorem Outline.Covers.isSkipped_eq {o : Outline} {j : Json} (h : o.Covers j) :
    o.isSkipped = false := by
  cases j with
  | object fields => exact h.1
  | _ => exact h

mutual

theorem covers_whole : (j : Json) → Outline.whole.Covers j
  | .object fields => ⟨rfl,coversFields_whole fields⟩
  | .null | .bool _ | .natural _ | .decimal _ | .string _ | .array _ => rfl

theorem coversFields_whole : (fs : List (String × Json)) → Outline.whole.CoversFields fs
  | [] => trivial
  | (_,j) :: fs => ⟨covers_whole j,coversFields_whole fs⟩

end

/-- The tokens of a value do not start with one that closes a container. -/
theorem exists_tokensOf (j : Json) : ∃ t ts, tokensOf j = t :: ts ∧ t ≠ .closeBracket := by
  cases j with
  | array items => cases items <;> exact ⟨_,_,rfl,by simp⟩
  | object fields => cases fields <;> exact ⟨_,_,rfl,by simp⟩
  | _ => exact ⟨_,_,rfl,by simp⟩

theorem value_scalar {o : Outline} {t : Token} {j : Json} (h : scalar o t = some j)
    (fuel room : Nat) (rest : List Token) :
    value (fuel + 1) o room (t :: rest) = some (j,rest) := by
  have hmap : (scalar o t).map (·,rest) = some (j,rest) := by rw [h, Option.map_some]
  cases t with
  | openBracket | openBrace => cases h
  | _ => exact hmap

theorem value_array {t : Token} (h : t ≠ .closeBracket) (o : Outline) (fuel room : Nat)
    (ts : List Token) : value (fuel + 1) o room (.openBracket :: t :: ts) =
      enter o room >>= fun room => (items fuel o room (t :: ts)).map fun r => (.array r.1,r.2) := by
  have hbind : ∀ room, (items fuel o room (t :: ts) >>= fun r => some (Json.array r.1,r.2)) =
      (items fuel o room (t :: ts)).map fun r => (.array r.1,r.2) := by
    intro room
    cases items fuel o room (t :: ts) <;> rfl
  cases t with
  | closeBracket => exact absurd rfl h
  | _ => exact congrArg (enter o room >>= ·) (funext hbind)

theorem value_object (key : Option String) (o : Outline) (fuel room : Nat) (ts : List Token) :
    value (fuel + 1) o room (.openBrace :: .string key :: ts) = enter o room >>= fun room =>
      (fields fuel o room (.string key :: ts)).map fun r => (.object r.1,r.2) := by
  have hbind : ∀ room, (fields fuel o room (.string key :: ts) >>= fun r =>
      some (Json.object r.1,r.2)) =
        (fields fuel o room (.string key :: ts)).map fun r => (.object r.1,r.2) := by
    intro room
    cases fields fuel o room (.string key :: ts) <;> rfl
  exact congrArg (enter o room >>= ·) (funext hbind)

/-- A container needs room for one more level. -/
theorem enter_bind {α : Type} {o : Outline} (ho : o.isSkipped = false) (room depth : Nat)
    {f : Nat → Option α} {a : α}
    (hf : ∀ room, f room = if depth ≤ room then some a else none) :
    enter o room >>= f = if depth + 1 ≤ room then some a else none := by
  unfold enter
  rw [ho]
  cases room with
  | zero => simp
  | succ room =>
    show f room = _
    rw [hf]
    simp

section
variable {fuel room : Nat} {o : Outline} {ts rest : List Token} {j : Json} {key : String}

theorem items_last (h : value fuel o.item room ts = some (j,.closeBracket :: rest)) :
    items (fuel + 1) o room ts = some ([j],rest) := by
  rw [items, h]
  rfl

theorem items_more (h : value fuel o.item room ts = some (j,.comma :: rest)) :
    items (fuel + 1) o room ts = (items fuel o room rest).map fun r => (j :: r.1,r.2) := by
  rw [items, h]
  show (items fuel o room rest).bind (fun r => some (j :: r.1,r.2)) = _
  cases items fuel o room rest <;> rfl

theorem items_eq_none (h : value fuel o.item room ts = none) :
    items (fuel + 1) o room ts = none := by
  rw [items, h]
  rfl

theorem memberKey_some (o : Outline) (key : String) : memberKey o (some key) = some key := by
  unfold memberKey
  split <;> rfl

theorem fields_last (h : value fuel (o.member key) room ts = some (j,.closeBrace :: rest)) :
    fields (fuel + 1) o room (.string (some key) :: .colon :: ts) = some ([(key,j)],rest) := by
  rw [fields, memberKey_some]
  show (value fuel (o.member key) room ts).bind _ = _
  rw [h]
  rfl

theorem fields_more (h : value fuel (o.member key) room ts = some (j,.comma :: rest)) :
    fields (fuel + 1) o room (.string (some key) :: .colon :: ts) =
      (fields fuel o room rest).map fun r => ((key,j) :: r.1,r.2) := by
  rw [fields, memberKey_some]
  show (value fuel (o.member key) room ts).bind _ = _
  rw [h]
  show (fields fuel o room rest).bind (fun r => some ((key,j) :: r.1,r.2)) = _
  cases fields fuel o room rest <;> rfl

theorem fields_eq_none (h : value fuel (o.member key) room ts = none) :
    fields (fuel + 1) o room (.string (some key) :: .colon :: ts) = none := by
  rw [fields, memberKey_some]
  show (value fuel (o.member key) room ts).bind _ = _
  rw [h]
  rfl

end

theorem length_tokensOf_pos (j : Json) : 0 < (tokensOf j).length := by
  obtain ⟨t,ts,h,-⟩ := exists_tokensOf j
  rw [h]
  exact Nat.succ_pos _

theorem length_itemTokens_pos (js : List Json) : 0 < (itemTokens js).length := by
  cases js <;> simp [itemTokens]

theorem length_fieldTokens_pos (fs : List (String × Json)) : 0 < (fieldTokens fs).length := by
  cases fs with
  | nil => simp [fieldTokens]
  | cons f fs => simp [fieldTokens]

mutual

/-- The tokens of a value are read as the value if there is room for its containers. Every token
pays for two calls, the one that takes it and one that hands it on. -/
theorem value_tokensOf : (j : Json) → j.Plain → {o : Outline} → o.Covers j → (fuel room : Nat) →
    (rest : List Token) → 2 * (tokensOf j).length ≤ fuel + 1 →
    value (fuel + 1) o room (tokensOf j ++ rest) =
      if j.depth ≤ room then some (j,rest) else none
  | .null, _, _, ho, fuel, room, rest, _ => value_scalar rfl fuel room rest
  | .bool b, _, _, ho, fuel, room, rest, _ => value_scalar rfl fuel room rest
  | .natural n, hplain, o, ho, fuel, room, rest, _ => by
    apply value_scalar
    rw [scalar, ho.isSkipped_eq]
    exact numberValue_toDigits hplain
  | .string s, _, o, ho, fuel, room, rest, _ => by
    apply value_scalar
    rw [scalar, ho.isSkipped_eq]
    rfl
  | .array [], _, o, ho, fuel, room, rest, _ => by
    have hvalue : value (fuel + 1) o room (tokensOf (.array []) ++ rest) =
        (enter o room).map fun _ => (.array [],rest) := rfl
    rw [hvalue, Option.map_eq_bind]
    exact enter_bind ho room 0 fun room => (if_pos room.zero_le).symm
  | .array (j :: js), hplain, o, ho, fuel, room, rest, hfuel => by
    have hlength : (tokensOf (.array (j :: js))).length =
        (tokensOf j).length + (itemTokens js).length + 1 := by simp [tokensOf]
    have hpos := length_itemTokens_pos js
    obtain ⟨m,rfl⟩ : ∃ m, fuel = m + 1 := ⟨fuel - 1,by omega⟩
    have hitems : ∀ room, (items (m + 1) o room (tokensOf j ++ itemTokens js ++ rest)).map
        (fun r => (Json.array r.1,r.2)) =
          if itemsDepth (j :: js) ≤ room then some (.array (j :: js),rest) else none := by
      intro room
      have h := items_tokensOf (j :: js) hplain (List.cons_ne_nil j js) ho m room rest (by
        simp only [itemTokens, List.length_cons, List.length_append]
        omega)
      rw [show tokensOf j ++ itemTokens js = (itemTokens (j :: js)).tail from rfl, h]
      split <;> rfl
    obtain ⟨t,ts,ht,hclose⟩ := exists_tokensOf j
    have hvalue := value_array hclose o (m + 1) room (ts ++ itemTokens js ++ rest)
    rw [show t :: (ts ++ itemTokens js ++ rest) = tokensOf j ++ itemTokens js ++ rest by
      rw [ht]; rfl, enter_bind ho room _ hitems] at hvalue
    exact hvalue
  | .object [], _, o, ho, fuel, room, rest, _ => by
    have hvalue : value (fuel + 1) o room (tokensOf (.object []) ++ rest) =
        (enter o room).map fun _ => (.object [],rest) := rfl
    rw [hvalue, Option.map_eq_bind]
    exact enter_bind ho.1 room 0 fun room => (if_pos room.zero_le).symm
  | .object ((key,j) :: fs), hplain, o, ho, fuel, room, rest, hfuel => by
    have hlength : (tokensOf (.object ((key,j) :: fs))).length =
        (tokensOf j).length + (fieldTokens fs).length + 3 := by simp [tokensOf]
    obtain ⟨m,rfl⟩ : ∃ m, fuel = m + 1 := ⟨fuel - 1,by omega⟩
    have hfields : ∀ room, (fields (m + 1) o room
        (.string (some key) :: .colon :: (tokensOf j ++ fieldTokens fs ++ rest))).map
          (fun r => (Json.object r.1,r.2)) =
            if fieldsDepth ((key,j) :: fs) ≤ room then some (.object ((key,j) :: fs),rest)
            else none := by
      intro room
      have h := fields_tokensOf ((key,j) :: fs) hplain (List.cons_ne_nil _ _) ho.1 ho.2 m room rest
        (by
          simp only [fieldTokens, List.length_cons, List.length_append]
          omega)
      have htokens : .string (some key) :: .colon :: (tokensOf j ++ fieldTokens fs ++ rest) =
          (fieldTokens ((key,j) :: fs)).tail ++ rest := rfl
      rw [htokens, h]
      split <;> rfl
    have hvalue := value_object (some key) o (m + 1) room
      (.colon :: (tokensOf j ++ fieldTokens fs ++ rest))
    rw [enter_bind ho.1 room _ hfields] at hvalue
    exact hvalue

theorem items_tokensOf : (js : List Json) → PlainItems js → js ≠ [] → {o : Outline} →
    o.isSkipped = false → (fuel room : Nat) → (rest : List Token) →
    2 * ((itemTokens js).length - 1) ≤ fuel + 1 →
    items (fuel + 1) o room ((itemTokens js).tail ++ rest) =
      if itemsDepth js ≤ room then some (js,rest) else none
  | j :: js, hplain, _, o, ho, fuel, room, rest, hfuel => by
    simp only [itemTokens, List.length_cons, List.length_append] at hfuel
    have hpos := length_itemTokens_pos js
    have hpos' := length_tokensOf_pos j
    obtain ⟨m,rfl⟩ : ∃ m, fuel = m + 1 := ⟨fuel - 1,by omega⟩
    have hitem : o.item = .whole := by
      cases o with
      | skipped => cases ho
      | _ => rfl
    have hvalue := value_tokensOf j hplain.1 (covers_whole j) m room (itemTokens js ++ rest)
      (by omega)
    rw [← hitem] at hvalue
    have htokens : (itemTokens (j :: js)).tail ++ rest = tokensOf j ++ (itemTokens js ++ rest) :=
      List.append_assoc ..
    rw [htokens]
    by_cases hdepth : j.depth ≤ room
    · rw [if_pos hdepth] at hvalue
      cases js with
      | nil =>
        have hmax : itemsDepth [j] ≤ room := by simpa [itemsDepth] using hdepth
        rw [if_pos hmax]
        exact items_last hvalue
      | cons k js =>
        have hrest := items_tokensOf (k :: js) hplain.2 (List.cons_ne_nil k js) ho m room rest
          (by omega)
        have hmax : itemsDepth (j :: k :: js) ≤ room ↔ itemsDepth (k :: js) ≤ room := by
          show max j.depth (itemsDepth (k :: js)) ≤ room ↔ _
          omega
        refine (items_more hvalue).trans ?_
        show (items (m + 1) o room ((itemTokens (k :: js)).tail ++ rest)).map _ = _
        rw [hrest]
        simp only [hmax]
        split <;> rfl
    · rw [if_neg hdepth] at hvalue
      rw [items_eq_none hvalue, if_neg (by simp only [itemsDepth]; omega)]

theorem fields_tokensOf : (fs : List (String × Json)) → PlainFields fs → fs ≠ [] → {o : Outline} →
    o.isSkipped = false → o.CoversFields fs → (fuel room : Nat) → (rest : List Token) →
    2 * ((fieldTokens fs).length - 1) ≤ fuel + 1 →
    fields (fuel + 1) o room ((fieldTokens fs).tail ++ rest) =
      if fieldsDepth fs ≤ room then some (fs,rest) else none
  | (key,j) :: fs, hplain, _, o, ho, hfields, fuel, room, rest, hfuel => by
    simp only [fieldTokens, List.length_cons, List.length_append] at hfuel
    have hpos := length_fieldTokens_pos fs
    have hpos' := length_tokensOf_pos j
    obtain ⟨m,rfl⟩ : ∃ m, fuel = m + 1 := ⟨fuel - 1,by omega⟩
    have hvalue := value_tokensOf j hplain.1 hfields.1 m room (fieldTokens fs ++ rest) (by omega)
    have htokens : (fieldTokens ((key,j) :: fs)).tail ++ rest =
        .string (some key) :: .colon :: (tokensOf j ++ (fieldTokens fs ++ rest)) := by
      rw [← List.append_assoc]
      rfl
    rw [htokens]
    by_cases hdepth : j.depth ≤ room
    · rw [if_pos hdepth] at hvalue
      cases fs with
      | nil =>
        have hmax : fieldsDepth [(key,j)] ≤ room := by simpa [fieldsDepth] using hdepth
        rw [if_pos hmax]
        exact fields_last hvalue
      | cons f fs =>
        have hrest := fields_tokensOf (f :: fs) hplain.2 (List.cons_ne_nil f fs) ho hfields.2 m
          room rest (by omega)
        have hmax : fieldsDepth ((key,j) :: f :: fs) ≤ room ↔ fieldsDepth (f :: fs) ≤ room := by
          show max j.depth (fieldsDepth (f :: fs)) ≤ room ↔ _
          omega
        refine (fields_more hvalue).trans ?_
        show (fields (m + 1) o room ((fieldTokens (f :: fs)).tail ++ rest)).map _ = _
        rw [hrest]
        simp only [hmax]
        split <;> rfl
    · rw [if_neg hdepth] at hvalue
      rw [fields_eq_none hvalue, if_neg (by simp only [fieldsDepth]; omega)]

end

/-- A value that is written out is read back, unless it is nested too deep. -/
theorem read_print {o : Outline} {j : Json} (hplain : j.Plain) (ho : o.Covers j) :
    read o j.print = if j.depth ≤ depthLimit then some j else none := by
  unfold read
  rw [tokens_print hplain]
  have hvalue := value_tokensOf j hplain ho (2 * (tokensOf j).length + 1) depthLimit [] (by omega)
  rw [List.append_nil] at hvalue
  show (value (2 * (tokensOf j).length + 2) o depthLimit (tokensOf j)).bind _ = _
  rw [hvalue]
  split <;> rfl

end Recast.Json
