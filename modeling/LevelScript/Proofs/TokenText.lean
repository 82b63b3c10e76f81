import LevelScript.Proofs.Lexing
import Mathlib.Data.List.TakeWhile

/-!
# The text of a token

Every token of a text covers a part of it: the letters of a word, the spelling of a mark, or a literal with its
quotes. The parts follow one another in the text, and between them there are blanks only.
-/

namespace LevelScript

/-- Letters, digits, and what else stands in numbers. -/
def inWord (c : Char) : Bool := isWordChar c || c == '.' || c == '+' || c == '-'

def Token.isValued : Token → Bool
  | .mark _ | .eof => false
  | _ => true

/-- What stands in front of a closing quote. A quote in it follows a backslash. -/
inductive Enclosed (quote : Char) : List Char → Prop
  | nil : Enclosed quote []
  | plain {c : Char} {cs : List Char} : c ≠ quote → c ≠ '\\' → Enclosed quote cs → Enclosed quote (c :: cs)
  | escaped {c : Char} {cs : List Char} : Enclosed quote cs → Enclosed quote ('\\' :: c :: cs)

inductive Token.Covers : Token → List Char → Prop
  | word {t : Token} {cs : List Char} : t.isValued = true → cs ≠ [] → (∀ c ∈ cs, inWord c = true) → Covers t cs
  | mark (m : Mark) : Covers (.mark m) m.spelling.toList
  | literal {t : Token} {quote : Char} {body : List Char} : t.isValued = true → quote = '"' ∨ quote = '\'' →
      Enclosed quote body → Covers t (quote :: (body ++ [quote]))

namespace Token.Covers

variable {t : Token} {cs : List Char}

theorem ne_nil (h : t.Covers cs) : cs ≠ [] := by
  cases h with
  | word _ h0 => exact h0
  | mark m =>
    obtain ⟨c, cs, hm, -⟩ := m.spelling_cons
    rw [hm]
    exact List.cons_ne_nil c cs
  | literal => exact List.cons_ne_nil _ _

theorem ne_eof (h : t.Covers cs) : t ≠ .eof := by
  rintro rfl
  cases h with
  | word ht => cases ht
  | literal ht => cases ht

end Token.Covers

/-! ## Literals -/

section
variable {quote : Char} {cs text : List Char} {n : Nat}

theorem ne_of_isDigitIn {base : Nat} {c : Char} (h : isDigitIn base c = true) : c ≠ '"' ∧ c ≠ '\'' ∧ c ≠ '\\' := by
  have none (d : Char) (hd : d = '"' ∨ d = '\'' ∨ d = '\\') : isDigitIn base d = false := by
    obtain rfl | rfl | rfl := hd <;> simp [isDigitIn, digitValue?]
  refine ⟨?_, ?_, ?_⟩ <;> rintro rfl
  · rw [none _ (.inl rfl)] at h
    cases h
  · rw [none _ (.inr (.inl rfl))] at h
    cases h
  · rw [none _ (.inr (.inr rfl))] at h
    cases h

theorem Enclosed.digits {base : Nat} {ds : List Char} (hq : quote = '"' ∨ quote = '\'')
    (hd : ∀ d ∈ ds, isDigitIn base d = true)
    (h : Enclosed quote cs) : Enclosed quote (ds ++ cs) := by
  induction ds with
  | nil => exact h
  | cons d ds ih =>
    rw [List.forall_mem_cons] at hd
    obtain ⟨h₁, h₂, h₃⟩ := ne_of_isDigitIn hd.1
    refine .plain ?_ h₃ (ih hd.2)
    obtain rfl | rfl := hq
    · exact h₁
    · exact h₂

namespace Quoted

theorem hexEscape_ok {count : Nat} {ch : Char} (h : hexEscape count cs = .ok (ch, n)) :
    n = 1 + count ∧ ∃ ds rest, cs = ds ++ rest ∧ ds.length = count ∧ ∀ d ∈ ds, isDigitIn 16 d = true := by
  unfold hexEscape hexDigits? at h
  dsimp only at h
  split at h
  case h_1 => cases h
  case h_2 value hv =>
    split at hv
    case isFalse => cases hv
    case isTrue hl =>
      split at h
      case isFalse => cases h
      case isTrue =>
        cases h
        refine ⟨rfl, (cs.take count).takeWhile (isDigitIn 16), cs.drop count, ?_, hl,
          fun d hd => List.mem_takeWhile_imp hd⟩
        have hall : (cs.take count).takeWhile (isDigitIn 16) = cs.take count :=
          (List.takeWhile_prefix _).eq_of_length_le (by rw [hl]; exact List.length_take_le ..)
        rw [hall, List.take_append_drop]

/-- An escape is one character and digits behind it. -/
theorem escape_ok {ch : Char} (h : escape cs = .ok (ch, n)) :
    ∃ c ds rest base, cs = c :: (ds ++ rest) ∧ ds.length + 1 = n ∧ ∀ d ∈ ds, isDigitIn base d = true := by
  cases cs with
  | nil => cases h
  | cons c cs =>
    rw [escape] at h
    cases hs : simple? c with
    | some _ =>
      rw [hs] at h
      cases h
      exact ⟨c, [], cs, 16, rfl, rfl, List.forall_mem_nil _⟩
    | none =>
      rw [hs] at h
      dsimp only at h
      have hex {count : Nat} (h : hexEscape count cs = .ok (ch, n)) :
          ∃ c' ds rest base, c :: cs = c' :: (ds ++ rest) ∧ ds.length + 1 = n ∧
              ∀ d ∈ ds, isDigitIn base d = true := by
        obtain ⟨rfl, ds, rest, rfl, rfl, hd⟩ := hexEscape_ok h
        exact ⟨c, ds, rest, 16, rfl, Nat.add_comm .., hd⟩
      split at h
      · exact hex h
      split at h
      · exact hex h
      split at h
      · exact hex h
      split at h
      · cases h
      case isFalse h0 =>
        cases h
        -- The digits are the character itself and those of the next two that are digits.
        have hp : ((c :: cs).take 3).takeWhile (isDigitIn 8) <+: c :: cs :=
          (List.takeWhile_prefix _).trans (List.take_prefix 3 (c :: cs))
        have hd : ∀ d ∈ ((c :: cs).take 3).takeWhile (isDigitIn 8), isDigitIn 8 d = true :=
          fun d => List.mem_takeWhile_imp
        cases ho : ((c :: cs).take 3).takeWhile (isDigitIn 8) with
        | nil => exact absurd ho h0
        | cons e ds =>
          rw [ho] at hp hd
          obtain ⟨rest, hr⟩ := hp
          exact ⟨e, ds, rest, 8, hr.symm, rfl, (List.forall_mem_cons.mp hd).2⟩

/-- A body that can be decoded ends in front of a closing quote. -/
theorem body_ok (hq : quote = '"' ∨ quote = '\'') (h : body quote cs = .ok (text, n)) :
    ∃ inner rest, cs = inner ++ quote :: rest ∧ inner.length = n ∧ Enclosed quote inner := by
  fun_induction body quote cs generalizing text n with
  | case1 => cases h
  | case2 rest =>
    cases h
    exact ⟨[], rest, rfl, rfl, .nil⟩
  | case3 => cases h
  | case4 => cases h
  | case5 rest ch len he more m hm _ ih =>
    cases h
    obtain ⟨inner, tail, hrest, rfl, hin⟩ := ih hm
    obtain ⟨c, ds, after, base, rfl, rfl, hd⟩ := escape_ok he
    rw [List.drop_succ_cons, List.drop_left] at hrest
    subst hrest
    refine ⟨'\\' :: c :: (ds ++ inner), tail, by simp, by simp; omega, .escaped (.digits hq hd hin)⟩
  | case6 => cases h
  | case7 c rest hc hb more m hm ih =>
    cases h
    obtain ⟨inner, tail, rfl, rfl, hin⟩ := ih hm
    exact ⟨c :: inner, tail, rfl, by simp; omega, .plain hc hb hin⟩

theorem literal_covers (hq : quote = '"' ∨ quote = '\'') (h : body quote cs = .ok (text, n)) :
    quote :: cs.take (n + 1) <+: quote :: cs ∧ ∀ t : Token, t.isValued = true →
    t.Covers (quote :: cs.take (n + 1)) := by
  obtain ⟨inner, tail, rfl, rfl, hin⟩ := body_ok hq h
  have htake : (inner ++ quote :: tail).take (inner.length + 1) = inner ++ [quote] := by
    rw [List.take_length_add_append, List.take_succ_cons, List.take_zero]
  rw [htake]
  exact ⟨⟨tail, by simp⟩, fun t ht => .literal ht hq hin⟩

theorem char_ok {ch : Char} (h : char cs = .ok (ch, n)) : body '\'' cs = .ok ([ch], n) := by
  unfold char at h
  split at h
  · cases h
  · split at h
    case h_1 => cases h
    case h_2 hb =>
      cases h
      exact hb
    case h_3 => cases h

end Quoted

end

/-! ## Words -/

namespace Word

variable {cs word rest : List Char}

theorem takeRest_append_eq (dot : Bool) (sign : Sign) (cs : List Char) :
    (takeRest dot sign cs).1 ++ (takeRest dot sign cs).2 = cs ∧
    ∀ c ∈ (takeRest dot sign cs).1, inWord c = true := by
  induction cs generalizing dot sign with
  | nil => exact ⟨rfl, List.forall_mem_nil _⟩
  | cons c cs ih =>
    rw [takeRest]
    split
    case isTrue hc =>
      obtain ⟨ha, hw⟩ := ih (dot && c != '.') (sign.next c)
      refine ⟨congrArg (c :: ·) ha, List.forall_mem_cons.mpr ⟨?_, hw⟩⟩
      simp only [Bool.or_eq_true, Bool.and_eq_true, beq_iff_eq] at hc
      simp only [inWord, Bool.or_eq_true, beq_iff_eq]
      tauto
    case isFalse => exact ⟨rfl, List.forall_mem_nil _⟩

theorem inWord_of_isDigit {c : Char} (h : c.isDigit = true) : inWord c = true := by
  simp [inWord, isWordChar, Char.isAlphanum, h]

theorem take?_some (h : take? cs = some (word, rest)) : cs = word ++ rest ∧ word ≠ [] ∧
    ∀ c ∈ word, inWord c = true := by
  unfold take? at h
  split at h
  case h_1 d cs =>
    split at h
    case isFalse => cases h
    case isTrue hd =>
      obtain ⟨ha, hw⟩ := takeRest_append_eq false .waiting cs
      cases h
      refine ⟨by simp [ha], List.cons_ne_nil _ _, List.forall_mem_cons.mpr ⟨rfl, List.forall_mem_cons.mpr ⟨?_, hw⟩⟩⟩
      exact inWord_of_isDigit hd
  case h_2 d cs _ =>
    split at h
    case isFalse => cases h
    case isTrue hd =>
      obtain ⟨ha, hw⟩ := takeRest_append_eq true .waiting cs
      cases h
      exact ⟨by simp [ha], List.cons_ne_nil _ _, List.forall_mem_cons.mpr ⟨inWord_of_isDigit hd, hw⟩⟩
  case h_3 => cases h

/-- The names and points of a word make up the word. -/
theorem splitDots_covers : ∀ cs : List Char, (∀ c ∈ cs, inWord c = true) →
    (splitDots cs).flatMap (·.2) = cs ∧ ∀ t ∈ splitDots cs, t.1.Covers t.2
  | [], _ => ⟨rfl, nofun⟩
  | c :: cs, h => by
    rw [List.forall_mem_cons] at h
    obtain ⟨hflat, hall⟩ := splitDots_covers cs h.2
    have name {part : List Char} (text : String) (hp : ∀ d ∈ part, inWord d = true) :
        (Token.identifier text).Covers (c :: part) :=
      .word rfl (List.cons_ne_nil _ _) (List.forall_mem_cons.mpr ⟨h.1, hp⟩)
    rw [splitDots]
    split
    case isTrue hc =>
      subst hc
      exact ⟨by simp [hflat], List.forall_mem_cons.mpr ⟨.mark .dot, hall⟩⟩
    case isFalse =>
      split
      case h_1 text part more hs =>
        rw [hs] at hflat hall
        rw [List.forall_mem_cons] at hall
        refine ⟨by simpa using hflat, List.forall_mem_cons.mpr ⟨name _ ?_, hall.2⟩⟩
        exact fun d hd => h.2 d (hflat ▸ List.mem_append_left _ hd)
      case h_2 more hs => exact ⟨by simp [hflat], List.forall_mem_cons.mpr ⟨name _ (List.forall_mem_nil _), hall⟩⟩

/-- The tokens of a word make up the word. -/
theorem tokens_covers {ts : List (Token × List Char)} (h0 : word ≠ []) (hw : ∀ c ∈ word, inWord c = true)
    (h : tokens word = .ok ts) : ts.flatMap (·.2) = word ∧ ∀ t ∈ ts, t.1.Covers t.2 := by
  have single {t : Token} (ht : t.isValued = true) :
      [(t, word)].flatMap (·.2) = word ∧ ∀ x ∈ [(t, word)], x.1.Covers x.2 :=
    ⟨by simp, List.forall_mem_cons.mpr ⟨.word ht h0 hw, nofun⟩⟩
  rw [tokens] at h
  rcases hc : classify word with _ | _ | (value | bits) <;> rw [hc] at h <;> cases h
  · exact splitDots_covers word hw
  · exact single rfl
  · exact single rfl

end Word

/-! ## Texts -/

namespace Mark

variable {m : Mark} {cs : List Char}

theorem spelling_starts (h : atStart? cs = some m) : m.spelling.toList <+: cs :=
  List.isPrefixOf_iff_prefix.mp (List.find?_some (p := fun m : Mark => m.spelling.toList.isPrefixOf cs) h)

theorem take_atStart? (h : atStart? cs = some m) : cs.take m.spelling.length = m.spelling.toList := by
  rw [← String.length_toList]
  exact (List.prefix_iff_eq_take.mp (spelling_starts h)).symm

end Mark

namespace Lexer

theorem isNameStart_inWord {c : Char} (h : isNameStart c = true) : inWord c = true := by
  simp only [isNameStart, Bool.or_eq_true] at h
  obtain h | h := h <;> simp [inWord, isWordChar, Char.isAlphanum, h]

/-- The tokens at a place cover, one after the other, what is written there. -/
theorem tokensAt_covers {c : Char} {rest : List Char} {ts : List (Token × List Char)}
    (h : tokensAt (c :: rest) = .ok ts) :
    ts.flatMap (·.2) <+: c :: rest ∧ ts ≠ [] ∧ ∀ t ∈ ts, t.1.Covers t.2 := by
  -- All but numeric words give one token.
  have single {t : Token} {cs : List Char} (hp : cs <+: c :: rest) (ht : t.Covers cs) :
      [(t, cs)].flatMap (·.2) <+: c :: rest ∧ [(t, cs)] ≠ [] ∧ ∀ x ∈ [(t, cs)], x.1.Covers x.2 :=
    ⟨by simpa using hp, List.cons_ne_nil _ _, List.forall_mem_cons.mpr ⟨ht, nofun⟩⟩
  rw [tokensAt] at h
  split at h
  case isTrue hc =>
    have hp : c :: rest.takeWhile isWordChar <+: c :: rest :=
      List.cons_prefix_cons.mpr ⟨rfl, List.takeWhile_prefix _⟩
    have hw : ∀ d ∈ c :: rest.takeWhile isWordChar, inWord d = true := by
      refine List.forall_mem_cons.mpr ⟨isNameStart_inWord hc, fun d hd => ?_⟩
      simp [inWord, List.mem_takeWhile_imp hd]
    dsimp only at h
    split at h <;> cases h
    · exact single hp (.word rfl (List.cons_ne_nil _ _) hw)
    · exact single hp (.word rfl (List.cons_ne_nil _ _) hw)
  case isFalse =>
    split at h
    case h_1 word tail hword =>
      obtain ⟨hcs, h0, hw⟩ := Word.take?_some hword
      split at h
      case h_2 => cases h
      case h_1 tokens ht =>
        cases h
        obtain ⟨hflat, hall⟩ := Word.tokens_covers h0 hw ht
        refine ⟨hflat ▸ ⟨tail, hcs.symm⟩, ?_, hall⟩
        rintro rfl
        exact h0 hflat.symm
    case h_2 =>
      split at h
      case isTrue hq =>
        subst hq
        split at h <;> cases h
        case h_1 hb =>
          obtain ⟨hp, ht⟩ := Quoted.literal_covers (.inl rfl) hb
          exact single hp (ht _ rfl)
      case isFalse =>
        split at h
        case isTrue hq =>
          subst hq
          split at h <;> cases h
          case h_1 hb =>
            obtain ⟨hp, ht⟩ := Quoted.literal_covers (.inr rfl) (Quoted.char_ok hb)
            exact single hp (ht _ rfl)
        case isFalse =>
          split at h <;> cases h
          case h_1 m hm =>
            rw [Mark.take_atStart? hm]
            exact single (Mark.spelling_starts hm) (.mark m)

/-- A text that starts at a place, and its lexemes: blanks are dropped, and every other part is a token. -/
inductive Tiled : Place → List Char → List Lexeme → Prop
  | eof (p : Place) : Tiled p [] [⟨.eof, p, p.offset⟩]
  | blank {p : Place} {c : Char} {cs : List Char} {ls : List Lexeme} : isBlank c = true →
      Tiled (p.step c) cs ls → Tiled p (c :: cs) ls
  | token {p : Place} {t : Token} {part cs : List Char} {ls : List Lexeme} : t.Covers part →
      Tiled (p.after part) cs ls →
      Tiled p (part ++ cs) (⟨t, p, (p.after part).offset⟩ :: ls)

theorem covered_eq (ts : List (Token × List Char)) : covered ts = (ts.flatMap (·.2)).length := by
  have sum (n : Nat) : ts.foldl (fun n t => n + t.2.length) n = n + (ts.flatMap (·.2)).length := by
    induction ts generalizing n with
    | nil => rfl
    | cons t ts ih => rw [List.foldl_cons, ih, List.flatMap_cons, List.length_append, Nat.add_assoc]
  rw [covered, sum, Nat.zero_add]

theorem placeAll_tiled {cs : List Char} {more : List Lexeme} : ∀ {p : Place} {ts : List (Token × List Char)},
    (∀ t ∈ ts, t.1.Covers t.2) → Tiled (placeAll p ts).2 cs more → Tiled p (ts.flatMap (·.2) ++ cs)
    ((placeAll p ts).1 ++ more)
  | _, [], _, h => h
  | p, (t, part) :: ts, ht, h => by
    rw [List.forall_mem_cons] at ht
    rw [List.flatMap_cons, List.append_assoc]
    exact .token ht.1 (placeAll_tiled ht.2 h)

/-- The lexemes that are read tile the text. -/
theorem scan_tiled {file : String} {p : Place} {cs : List Char} {ls : List Lexeme}
    (h : scan file p cs = .ok ls) : Tiled p cs ls := by
  fun_induction scan file p cs generalizing ls with
  | case1 p =>
    cases h
    exact .eof p
  | case2 p c rest hb ih => exact .blank hb (ih h)
  | case3 => cases h
  | case4 => cases h
  | case5 p c rest _ ts ht lexemes next hp more hm ih =>
    cases h
    obtain ⟨⟨tail, htail⟩, h0, hall⟩ := tokensAt_covers ht
    have hlexemes : lexemes = (placeAll p ts).1 := by rw [hp]
    have hnext : next = (placeAll p ts).2 := by rw [hp]
    have hrest : rest.drop (covered ts - 1) = tail := by
      have hpos : 0 < (ts.flatMap (·.2)).length := by
        refine List.length_pos_iff.mpr fun hnil => ?_
        obtain ⟨t, ht⟩ := List.exists_mem_of_ne_nil ts h0
        exact (hall t ht).ne_nil (List.flatMap_eq_nil_iff.mp hnil t ht)
      have hdrop : (c :: rest).drop (covered ts) = tail := by rw [covered_eq, ← htail, List.drop_left]
      rwa [show covered ts = covered ts - 1 + 1 by rw [covered_eq]; omega, List.drop_succ_cons] at hdrop
    rw [hrest, hnext] at ih
    rw [hrest, hnext] at hm
    rw [hlexemes, ← htail]
    exact placeAll_tiled hall (ih hm)

end Lexer

end LevelScript
