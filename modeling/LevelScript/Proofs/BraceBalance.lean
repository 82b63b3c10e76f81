import LevelScript.Console
import LevelScript.Proofs.TokenText

/-!
# Braces of a text and of its tokens

The dialogue counts the braces of a text character by character, with an eye on quotes only. On a text that can be
split into tokens it counts the brace tokens, so that it waits for more lines just if one of them is still open.
-/

namespace LevelScript

namespace Token

/-- How much deeper in braces a text is behind the token. -/
def braces : Token → Int
  | .mark .lbrace => 1
  | .mark .rbrace => -1
  | _ => 0

theorem braces_valued {t : Token} (h : t.isValued = true) : t.braces = 0 := by
  cases t with
  | mark => cases h
  | _ => rfl

end Token

theorem sum_braces (ls : List Lexeme) : (ls.map fun l => l.token.braces).sum =
    (ls.countP (·.token = .mark .lbrace) : Int) - ls.countP (·.token = .mark .rbrace) := by
  induction ls with
  | nil => rfl
  | cons l ls ih =>
    have hl : l.token.braces = (if l.token = .mark .lbrace then 1 else 0 : Int) -
        (if l.token = .mark .rbrace then 1 else 0) := by
      unfold Token.braces
      split <;> simp_all
    rw [List.map_cons, List.sum_cons, ih, hl, List.countP_cons, List.countP_cons]
    simp only [decide_eq_true_eq, Nat.cast_add, Nat.cast_ite, Nat.cast_one, Nat.cast_zero]
    omega

namespace Console

variable {quote c : Char} {cs rest : List Char}

/-! ## Parts of a text -/

def isQuoteOrBrace (c : Char) : Bool := c == '"' || c == '\'' || c == '\x7b' || c == '\x7d'

theorem braceDepthFrom_skip (h : isQuoteOrBrace c = false) (cs : List Char) :
    braceDepthFrom none false (c :: cs) = braceDepthFrom none false cs := by
  simp only [isQuoteOrBrace, Bool.or_eq_false_iff, beq_eq_false_iff_ne] at h
  obtain ⟨⟨⟨h₁, h₂⟩, h₃⟩, h₄⟩ := h
  simp [braceDepthFrom, h₁, h₂, h₃, h₄]

theorem braceDepthFrom_skips (h : ∀ c ∈ cs, isQuoteOrBrace c = false) (rest : List Char) :
    braceDepthFrom none false (cs ++ rest) = braceDepthFrom none false rest := by
  induction cs with
  | nil => rfl
  | cons c cs ih =>
    rw [List.forall_mem_cons] at h
    rw [List.cons_append, braceDepthFrom_skip h.1, ih h.2]

theorem isQuoteOrBrace_inWord (h : inWord c = true) : isQuoteOrBrace c = false := by
  rw [← Bool.not_eq_true]
  intro hc
  simp only [isQuoteOrBrace, Bool.or_eq_true, beq_iff_eq] at hc
  obtain ((rfl | rfl) | rfl) | rfl := hc <;> revert h <;> decide

theorem isQuoteOrBrace_blank (h : isBlank c = true) : isQuoteOrBrace c = false := by
  simp only [isBlank, Bool.or_eq_true, beq_iff_eq] at h
  obtain ((rfl | rfl) | rfl) | rfl := h <;> rfl

/-- Inside a literal nothing is counted, up to the quote that closes it. -/
theorem braceDepthFrom_enclosed (hq : quote ≠ '\\') (h : Enclosed quote cs) (rest : List Char) :
    braceDepthFrom (some quote) false (cs ++ quote :: rest) = braceDepthFrom none false rest := by
  induction h with
  | nil => simp [braceDepthFrom, hq]
  | plain hc hb _ ih => simpa [braceDepthFrom, hc, hb] using ih
  | escaped _ ih => simpa [braceDepthFrom] using ih

theorem braceDepthFrom_mark (m : Mark) (rest : List Char) :
    braceDepthFrom none false
    (m.spelling.toList ++ rest) = (Token.mark m).braces + braceDepthFrom none false rest := by
  by_cases hl : m = .lbrace
  · subst hl
    exact Int.add_comm ..
  by_cases hr : m = .rbrace
  · subst hr
    exact (Int.sub_eq_add_neg ..).trans (Int.add_comm ..)
  have others : ∀ m ∈ Mark.all, m ≠ .lbrace → m ≠ .rbrace → m.spelling.toList.all (!isQuoteOrBrace ·) = true := by
    decide +kernel
  have hm : ∀ c ∈ m.spelling.toList, isQuoteOrBrace c = false := by
    simpa using others m (Mark.mem_all m) hl hr
  have h0 : (Token.mark m).braces = 0 := by
    unfold Token.braces
    split <;> simp_all
  rw [braceDepthFrom_skips hm, h0, Int.zero_add]

/-- A token counts as a brace just if it is one. -/
theorem braceDepthFrom_covers {t : Token} (h : t.Covers cs) (rest : List Char) :
    braceDepthFrom none false (cs ++ rest) = t.braces + braceDepthFrom none false rest := by
  cases h with
  | word ht _ hw =>
    rw [braceDepthFrom_skips fun c hc => isQuoteOrBrace_inWord (hw c hc), Token.braces_valued ht, Int.zero_add]
  | mark m => exact braceDepthFrom_mark m rest
  | @literal _ quote body ht hq hbody =>
    have hopen : braceDepthFrom none false (quote :: (body ++ quote :: rest)) =
        braceDepthFrom (some quote) false (body ++ quote :: rest) := by
      obtain rfl | rfl := hq <;> rfl
    have hne : quote ≠ '\\' := by obtain rfl | rfl := hq <;> decide
    rw [Token.braces_valued ht, Int.zero_add, List.cons_append, List.append_assoc, List.singleton_append, hopen,
      braceDepthFrom_enclosed hne hbody]

theorem braceDepthFrom_tiled {p : Place} {ls : List Lexeme} (h : Lexer.Tiled p cs ls) :
    braceDepthFrom none false cs = (ls.map fun l => l.token.braces).sum := by
  induction h with
  | eof => rfl
  | blank hc _ ih => rw [braceDepthFrom_skip (isQuoteOrBrace_blank hc), ih]
  | token ht _ ih => rw [braceDepthFrom_covers ht, ih, List.map_cons, List.sum_cons]

end Console

open Console in
/-- The braces that the dialogue counts in a text are those among its tokens, so a line is held back just if
they leave a brace open, and otherwise everything that waits is run with it. -/
theorem braceDepth_tokens {text file : String} {ls : List Lexeme} (h : tokenize text file = .ok ls) :
    let opening := ls.countP (·.token = .mark .lbrace)
    let closing := ls.countP (·.token = .mark .rbrace)
    braceDepth text = (opening : Int) - closing ∧
      ∀ (i : Interp) (s : Repl) (line : String), s.pending ++ line ++ "\n" = text →
        addLine i s line =
          if closing < opening then pure { s with pending := text }
          else do
            runShown i text
            return { s with pending := "" } := by
  intro opening closing
  have hdepth : braceDepth text = (opening : Int) - closing :=
    (braceDepthFrom_tiled (Lexer.scan_tiled h)).trans (sum_braces ls)
  refine ⟨hdepth, fun i s line hline => ?_⟩
  rw [addLine, hline]
  by_cases hlt : closing < opening
  · rw [if_pos hlt, if_pos (by omega)]
  · rw [if_neg hlt, if_neg (by omega)]

open Console in
theorem braceDepth_tokens_open :
    let line := "if x => \x7b s = \"\x7d\\\"\x7b\"; c = '\x7d';"
    ∃ ls, tokenize (line ++ "\n") "" = .ok ls ∧ braceDepth (line ++ "\n") = 1 ∧
      ∀ i, addLine i {} line = pure { pending := line ++ "\n" } := by
  intro line
  have run : (tokenize (line ++ "\n") "").map (fun ls =>
      (ls.countP (·.token = .mark .lbrace), ls.countP (·.token = .mark .rbrace))) = .ok (1, 0) := by decide +kernel
  cases h : tokenize (line ++ "\n") "" with
  | error e =>
    rw [h] at run
    cases run
  | ok ls =>
    rw [h] at run
    obtain ⟨hopening, hclosing⟩ := Prod.ext_iff.mp (Except.ok.inj run)
    obtain ⟨hdepth, hline⟩ := braceDepth_tokens h
    dsimp only at hopening hclosing
    rw [hopening, hclosing] at hdepth
    refine ⟨ls, rfl, hdepth, fun i => (hline i {} line (congrArg (· ++ "\n") String.empty_append)).trans ?_⟩
    rw [hopening, hclosing]
    rfl

end LevelScript
