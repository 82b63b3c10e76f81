import LevelScript.Proofs.IntegerTree
import Mathlib.Data.Bool.AllAny

/-!
# Tokens that blanks separate

A token that is followed by a blank or a semicolon is read back as it was written: no longer mark and no
longer word can start where it does.
-/

namespace LevelScript

/-- What ends a token. -/
def Separates (c : Char) : Prop := isBlank c = true ∨ c = ';'

theorem Separates.mem {c : Char} (h : Separates c) : c ∈ [' ', '\t', '\r', '\n', ';'] := by
  obtain h | h := h
  · simp only [isBlank, Bool.or_eq_true, beq_iff_eq] at h
    obtain ((h | h) | h) | h := h <;> simp [h]
  · simp [h]

/-- No other token starts so. -/
def startsMark (c : Char) : Bool := !isBlank c && !isNameStart c && !c.isDigit && c != '"' && c != '\''

/-! ## Marks -/

namespace Mark

theorem mem_all (m : Mark) : m ∈ all := by cases m <;> decide

theorem find?_spelling : ∀ m ∈ all, all.find? (·.spelling.toList.isPrefixOf m.spelling.toList) = some m := by
  decide +kernel

theorem length_of_separator :
    ∀ m ∈ all, ∀ c ∈ [' ', '\t', '\r', '\n', ';'], c ∈ m.spelling.toList → m.spelling.toList.length = 1 := by
  simp only [← List.all_iff_forall_prop]
  decide +kernel

theorem startsMark_spelling : ∀ m ∈ all, m.spelling.toList.head?.any startsMark = true := by
  decide +kernel

theorem isDigit_spelling : ∀ m ∈ all, ∀ c ∈ m.spelling.toList, c.isDigit = false := by
  simp only [← List.all_iff_forall_prop]
  decide +kernel

theorem spelling_cons (m : Mark) : ∃ c cs, m.spelling.toList = c :: cs ∧ startsMark c = true := by
  have h := startsMark_spelling m (mem_all m)
  cases hs : m.spelling.toList with
  | nil =>
    rw [hs] at h
    cases h
  | cons c cs =>
    rw [hs] at h
    exact ⟨c, cs, rfl, h⟩

/-- Behind a mark nothing makes it a longer one. -/
theorem atStart?_spelling (m : Mark) {rest : List Char} (hr : ∀ c ∈ rest.head?, Separates c) :
    atStart? (m.spelling.toList ++ rest) = some m := by
  rw [← find?_spelling m (mem_all m), atStart?]
  congr 1
  funext m'
  rw [Bool.eq_iff_iff, List.isPrefixOf_iff_prefix, List.isPrefixOf_iff_prefix]
  refine ⟨fun h => ?_, fun h => h.trans (List.prefix_append ..)⟩
  by_cases hl : m'.spelling.toList.length ≤ m.spelling.toList.length
  · exact List.prefix_of_prefix_length_le h (List.prefix_append ..) hl
  · cases rest with
    | nil => rwa [List.append_nil] at h
    | cons d rest =>
      -- A longer mark has the separator in it, but the only mark that has one is a single character.
      have hd : d ∈ m'.spelling.toList := by
        have hi : m'.spelling.toList[m.spelling.toList.length]? = some d := by
          obtain ⟨t, ht⟩ := h
          rw [← @List.getElem?_append_left _ m'.spelling.toList t _ (Nat.not_le.mp hl), ht]
          simp
        exact List.mem_of_getElem? hi
      have h1 := length_of_separator m' (mem_all m') d (hr d rfl).mem hd
      obtain ⟨c, cs, hm, -⟩ := spelling_cons m
      rw [hm, List.length_cons] at hl
      omega

end Mark

/-! ## Words -/

theorem digitValue?_digit : ∀ d : Fin 16, ∀ base : Fin 17, d.val < base.val →
    digitValue? base (Nat.digitChar d) = some d.val ∧ digitValue? base (Nat.digitChar d).toUpper = some d.val := by
  decide +kernel

theorem digit_chars :
    ∀ d : Fin 16, (isWordChar (Nat.digitChar d) = true ∧ isWordChar (Nat.digitChar d).toUpper = true) ∧
    (d.val < 10 → (Nat.digitChar d).isDigit = true ∧ (Nat.digitChar d).toUpper.isDigit = true) := by
  decide +kernel

namespace IsDigit

variable {c : Char} {d base : Nat} (h : IsDigit c d)
include h

theorem value (hd : d < base) (hb : base ≤ 16) : digitValue? base c = some d := by
  obtain ⟨lower, upper⟩ := digitValue?_digit ⟨d, by omega⟩ ⟨base, by omega⟩ hd
  obtain rfl | rfl := h
  · exact lower
  · exact upper

theorem isWordChar (hd : d < 16) : isWordChar c = true := by
  obtain ⟨⟨lower, upper⟩, -⟩ := digit_chars ⟨d, hd⟩
  obtain rfl | rfl := h
  · exact lower
  · exact upper

theorem noPrefix (hd : d < 8) : ¬(c = 'x' ∨ c = 'X') ∧ ¬(c = 'b' ∨ c = 'B') := by
  have : ∀ d : Fin 8, ∀ c ∈ [Nat.digitChar d, (Nat.digitChar d).toUpper], ¬(c = 'x' ∨ c = 'X') ∧
      ¬(c = 'b' ∨ c = 'B') := by
    simp only [← List.all_iff_forall_prop]
    decide +kernel
  exact this ⟨d, hd⟩ c (by simpa [IsDigit] using h)

theorem isDigit (hd : d < 10) : c.isDigit = true := by
  obtain ⟨lower, upper⟩ := (digit_chars ⟨d, by omega⟩).2 hd
  obtain rfl | rfl := h
  · exact lower
  · exact upper

end IsDigit

theorem Separates.ends {c : Char} (h : Separates c) :
    isWordChar c = false ∧ c.isDigit = false ∧ c ≠ '.' ∧ c ≠ '+' ∧ c ≠ '-' := by
  have : ∀ c ∈ [' ', '\t', '\r', '\n', ';'], isWordChar c = false ∧ c.isDigit = false ∧ c ≠ '.' ∧
      c ≠ '+' ∧ c ≠ '-' := by
    simp only [← List.all_iff_forall_prop]
    decide
  exact this c h.mem

namespace Word

theorem takeRest_append {cs rest : List Char} (h : ∀ c ∈ cs, isWordChar c = true)
    (hr : ∀ c ∈ rest.head?, Separates c) (dot : Bool)
    (sign : Sign) : takeRest dot sign (cs ++ rest) = (cs, rest) := by
  induction cs generalizing dot sign with
  | nil =>
    cases rest with
    | nil => rfl
    | cons c rest =>
      obtain ⟨hw, -, hd, hp, hm⟩ := (hr c rfl).ends
      rw [List.nil_append, takeRest, if_neg]
      simp [hw, hd, hp, hm]
  | cons c cs ih =>
    rw [List.cons_append, takeRest, if_pos (by simp [h c List.mem_cons_self])]
    rw [ih (fun c hc => h c (List.mem_cons_of_mem _ hc))]

theorem take?_append {c : Char} {cs rest : List Char} (hc : c.isDigit = true) (h : ∀ c ∈ cs, isWordChar c = true)
    (hr : ∀ c ∈ rest.head?, Separates c) : take? (c :: cs ++ rest) = some (c :: cs, rest) := by
  have hdot : c ≠ '.' := by
    rintro rfl
    cases hc
  rw [List.cons_append, take?]
  · rw [if_pos hc, takeRest_append h hr]
  · intro d cs' he
    exact absurd he hdot

theorem take?_eq_none {c : Char} {cs : List Char} (hc : c.isDigit = false)
    (hd : ∀ d ∈ cs.head?, d.isDigit = false) :
    take? (c :: cs) = none := by
  unfold take?
  split
  case h_1 d cs' he =>
    rw [(List.cons.inj he).2] at hd
    rw [if_neg (Bool.eq_false_iff.mp (hd d rfl))]
  case h_2 d cs' _ he =>
    rw [← (List.cons.inj he).1, if_neg (Bool.eq_false_iff.mp hc)]
  case h_3 => rfl

end Word

namespace Digits

variable {base n : Nat} {cs : List Char}

theorem mem (h : Digits base n cs) : ∀ c ∈ cs, ∃ d, d < base ∧ IsDigit c d := by
  induction h with
  | nil => nofun
  | snoc _ hd hc ih =>
    intro c hm
    obtain hm | hm := List.mem_append.mp hm
    · exact ih c hm
    · rw [List.mem_singleton.mp hm]
      exact ⟨_, hd, hc⟩

theorem isWordChar (h : Digits base n cs) (hb : base ≤ 16) : ∀ c ∈ cs, isWordChar c = true := by
  intro c hc
  obtain ⟨d, hd, hc⟩ := h.mem c hc
  exact hc.isWordChar (by omega)

theorem ofDigits (h : Digits base n cs) (hb : base ≤ 16) : LevelScript.ofDigits base cs = n := by
  induction h with
  | nil => rfl
  | snoc _ hd hc ih =>
    have := hc.value hd hb
    rw [LevelScript.ofDigits, List.foldl_append, ← LevelScript.ofDigits, ih, List.foldl_cons, List.foldl_nil, this]
    rfl

theorem integer? (h : Digits base n cs) (h0 : cs ≠ []) (hb : base ≤ 16) {word : List Char}
    (hw : Word.integerDigits word = (cs, base)) : Word.integer? word = some n := by
  have hall : cs.all (isDigitIn base) = true := by
    rw [List.all_eq_true]
    intro c hc
    obtain ⟨d, hd, hc⟩ := h.mem c hc
    rw [isDigitIn, hc.value hd hb]
    rfl
  rw [Word.integer?, hw]
  exact (if_pos ⟨h0, hall⟩).trans (congrArg some (h.ofDigits hb))

end Digits

namespace Numeral

variable {n : Nat} {cs : List Char}

theorem chars (h : Numeral n cs) : ∃ c rest, cs = c :: rest ∧ c.isDigit = true ∧
    ∀ c ∈ rest, isWordChar c = true := by
  cases h with
  | zero => exact ⟨_, _, rfl, rfl, nofun⟩
  | @decimal _ c cs h =>
    obtain ⟨d, hd, hc⟩ := h.mem c List.mem_cons_self
    exact ⟨c, cs, rfl, hc.isDigit hd, (List.forall_mem_cons.mp (h.isWordChar (by decide))).2⟩
  | octal h => exact ⟨_, _, rfl, rfl, h.isWordChar (by decide)⟩
  | hexadecimal h _ hx =>
    have hw : ∀ x ∈ ['x', 'X'], LevelScript.isWordChar x = true := List.all_iff_forall_prop.mp (by decide)
    exact ⟨_, _, rfl, rfl, List.forall_mem_cons.mpr ⟨hw _ hx, h.isWordChar (by decide)⟩⟩
  | binary h _ hx =>
    have hw : ∀ x ∈ ['b', 'B'], LevelScript.isWordChar x = true := List.all_iff_forall_prop.mp (by decide)
    exact ⟨_, _, rfl, rfl, List.forall_mem_cons.mpr ⟨hw _ hx, h.isWordChar (by decide)⟩⟩

theorem integer? (h : Numeral n cs) : Word.integer? cs = some n := by
  cases h with
  | zero => rfl
  | decimal h hc =>
    refine h.integer? nofun (by decide) ?_
    unfold Word.integerDigits
    split
    case h_1 he => exact absurd (List.cons.inj he).1 hc
    case h_2 => rfl
  | @octal _ cs h h0 =>
    refine h.integer? h0 (by decide) ?_
    cases cs with
    | nil => exact absurd rfl h0
    | cons c cs =>
      obtain ⟨d, hd, hc⟩ := h.mem c List.mem_cons_self
      obtain ⟨hx, hb⟩ := hc.noPrefix hd
      exact (if_neg hx).trans (if_neg hb)
  | hexadecimal h h0 hx =>
    refine h.integer? h0 (by decide) (if_pos ?_)
    simpa using hx
  | binary h h0 hx =>
    refine h.integer? h0 (by decide) ((if_neg ?_).trans (if_pos ?_))
    · have : ∀ x ∈ ['b', 'B'], ¬(x = 'x' ∨ x = 'X') := List.all_iff_forall_prop.mp (by decide)
      exact this _ hx
    · simpa using hx

theorem tokens {n : UInt64} (h : Numeral n.toNat cs) : Word.tokens cs = .ok [(.integer n, cs)] := by
  have hc : Word.classify cs = .ok (some (.integer n.toNat)) := by
    rw [Word.classify, h.integer?]
    exact if_pos n.toNat_lt
  rw [Word.tokens, hc]
  exact congrArg (fun n => Except.ok [(Token.integer n, cs)]) UInt64.ofNat_toNat

end Numeral

/-! ## Texts -/

theorem isNameStart_digit {c : Char} (h : c.isDigit = true) : isNameStart c = false := by
  simp only [Char.isDigit, Bool.and_eq_true, decide_eq_true_eq, UInt32.le_iff_toNat_le] at h
  have hu : c ≠ '_' := by
    rintro rfl
    simp at h
  have ha : c.isAlpha = (decide (c.val ≥ 'A'.val ∧ c.val ≤ 'Z'.val) ||
    (decide (c.val ≥ 'a'.val) && decide (c.val ≤ 'z'.val))) := rfl
  simp only [isNameStart, ha, Bool.or_eq_false_iff, Bool.and_eq_false_iff, decide_eq_false_iff_not,
    UInt32.le_iff_toNat_le, beq_eq_false_iff_ne]
  simp at h ⊢
  exact ⟨⟨by omega, by omega⟩, hu⟩

namespace Lexer

theorem tokensAt_spelled {t : Token} {cs rest : List Char} (ht : t.Spelled cs)
    (hr : ∀ c ∈ rest.head?, Separates c) :
    tokensAt (cs ++ rest) = .ok [(t, cs)] := by
  cases ht with
  | mark m =>
    have ha := m.atStart?_spelling hr
    have hdigit := m.isDigit_spelling (Mark.mem_all m)
    have hl : m.spelling.toList.length = m.spelling.length := String.length_toList
    obtain ⟨c, cs, hm, hc⟩ := m.spelling_cons
    rw [hm, List.cons_append] at ha
    rw [hm] at hdigit hl
    simp only [startsMark, Bool.and_eq_true, Bool.not_eq_true', bne_iff_ne] at hc
    obtain ⟨⟨⟨⟨-, hn⟩, hd⟩, hq⟩, hq'⟩ := hc
    have hnext : ∀ d ∈ (cs ++ rest).head?, d.isDigit = false := by
      cases cs with
      | nil => exact fun d hd => (hr d hd).ends.2.1
      | cons d cs => exact fun d' hd' => hdigit d' (List.mem_cons_of_mem _ (by cases hd'; exact List.mem_cons_self))
    rw [hm, List.cons_append, tokensAt, if_neg (Bool.eq_false_iff.mp hn), Word.take?_eq_none hd hnext]
    simp only [if_neg hq, if_neg hq', ha]
    rw [← hl, ← List.cons_append, List.take_left]
  | integer h =>
    have ht := h.tokens
    obtain ⟨c, cs, rfl, hc, hw⟩ := h.chars
    rw [List.cons_append, tokensAt, if_neg (Bool.eq_false_iff.mp (isNameStart_digit hc)), ← List.cons_append,
      Word.take?_append hc hw hr]
    simp only [ht]

theorem spelled_cons {t : Token} {cs : List Char} (ht : t.Spelled cs) : ∃ c rest, cs = c :: rest ∧
    isBlank c = false := by
  cases ht with
  | mark m =>
    obtain ⟨c, cs, hm, hc⟩ := m.spelling_cons
    simp only [startsMark, Bool.and_eq_true, Bool.not_eq_true'] at hc
    exact ⟨c, cs, hm, hc.1.1.1.1⟩
  | integer h =>
    obtain ⟨c, cs, rfl, hc, -⟩ := h.chars
    refine ⟨c, cs, rfl, Bool.eq_false_iff.mpr fun hb => ?_⟩
    rw [(Separates.ends (.inl hb)).2.1] at hc
    cases hc

/-- A token comes first, and what follows starts at another place. -/
theorem scan_spelled {t : Token} {cs rest : List Char} (ht : t.Spelled cs) (hr : ∀ c ∈ rest.head?, Separates c)
    (file : String) (place : Place) : ∃ l place', l.token = t ∧ ∀ more, scan file place' rest = .ok more →
      scan file place (cs ++ rest) = .ok (l :: more) := by
  have htokens := tokensAt_spelled ht hr
  obtain ⟨c, cs, rfl, hc⟩ := spelled_cons ht
  refine ⟨⟨t, place, (place.after (c :: cs)).offset⟩, place.after (c :: cs), rfl, fun more h => ?_⟩
  rw [List.cons_append] at htokens ⊢
  rw [scan, if_neg (Bool.eq_false_iff.mp hc), htokens]
  have hcovered : covered [(t, c :: cs)] - 1 = cs.length := by
    simp [covered]
  simp only [placeAll, hcovered, List.drop_left, h]
  rfl

theorem scan_blank {gap : List Char} (hg : Blank gap) (file : String) (rest : List Char) (place : Place) :
    ∃ place', scan file place (gap ++ rest) = scan file place' rest := by
  induction gap generalizing place with
  | nil => exact ⟨place, rfl⟩
  | cons c gap ih =>
    obtain ⟨place', h⟩ := ih (fun c hc => hg c (List.mem_cons_of_mem _ hc)) (place.step c)
    refine ⟨place', ?_⟩
    rw [List.cons_append, scan, if_pos (hg c List.mem_cons_self), h]

/-- What a text of tokens is read as, with a semicolon behind it. -/
theorem scan_spaced {ts : List Token} {cs : List Char} (h : Spaced ts cs) (file : String) (place : Place) :
    ∃ ls semicolon eof, scan file place (cs ++ [';']) = .ok (ls ++ [semicolon, eof]) ∧ ls.map Lexeme.token = ts ∧
      semicolon.token = .mark .semicolon ∧ eof.token = .eof := by
  induction h generalizing place with
  | nil hg =>
    have hsemi : Token.Spelled (.mark .semicolon) [';'] := .mark .semicolon
    obtain ⟨place', hgap⟩ := scan_blank hg file [';'] place
    have hend : ∀ c ∈ ([] : List Char).head?, Separates c := nofun
    obtain ⟨semicolon, place'', hs, hscan⟩ := scan_spelled hsemi hend file place'
    have hempty : scan file place'' [] = .ok [⟨.eof, place'', place''.offset⟩] := by rw [scan]
    exact ⟨[], semicolon, _, hgap.trans (hscan _ hempty), rfl, hs, rfl⟩
  | @cons t ts before cs rest hb ht hr h0 ih =>
    have hsep : ∀ c ∈ (rest ++ [';']).head?, Separates c := by
      intro c hc
      cases rest with
      | nil => exact .inr (Option.mem_some.mp hc).symm
      | cons d rest => exact .inl (h0 c hc)
    obtain ⟨place', hgap⟩ := scan_blank hb file (cs ++ (rest ++ [';'])) place
    obtain ⟨l, place'', hl, hscan⟩ := scan_spelled ht hsep file place'
    obtain ⟨ls, semicolon, eof, hrest, hts, hs, he⟩ := ih place''
    refine ⟨l :: ls, semicolon, eof, ?_, by rw [List.map_cons, hl, hts], hs, he⟩
    rw [List.append_assoc, List.append_assoc, hgap]
    exact hscan _ hrest

end Lexer

theorem tokenize_spaced {ts : List Token} {source : String} (h : Spaced ts source.toList) (file : String) :
    ∃ ls semicolon eof, tokenize (source ++ ";") file = .ok (ls ++ [semicolon, eof]) ∧ ls.map Lexeme.token = ts ∧
      semicolon.token = .mark .semicolon ∧ eof.token = .eof := by
  rw [tokenize, String.toList_append]
  exact Lexer.scan_spaced h file {}

end LevelScript
