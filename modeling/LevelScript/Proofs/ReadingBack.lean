import LevelScript.Proofs.Rendering
import LevelScript.Proofs.TokenPlaces
import Mathlib.Tactic.Ring

/-!
# Texts that read back

A text is shown as a string literal. A literal of a text without the character zero is read as that text: an escape
ends where it should, whatever character comes next. The texts of values have no such character, as they end at the
first zero in memory.
-/

namespace LevelScript

open Text (escapeChar)

/-! ## Escapes -/

namespace Quoted

theorem hexDigits?_append {ds : List Char} {count n : Nat} (hl : ds.length = count)
    (h : hexDigits? count ds = .ok n) (rest : List Char) : hexDigits? count (ds ++ rest) = .ok n := by
  subst hl
  rw [hexDigits?, List.take_length] at h
  rw [hexDigits?, List.take_left]
  exact h

/-- Control characters are written with two digits, so no digit behind them counts. -/
theorem hexPadded_control {c : Char} (hc : c.toNat < 0x20) :
    (hexPadded 2 c.toNat).toList.length = 2 ∧ hexDigits? 2 (hexPadded 2 c.toNat).toList = .ok c.toNat := by
  have digits : ∀ n : Fin 0x20, (hexPadded 2 n).toList.length = 2 ∧
    hexDigits? 2 (hexPadded 2 n).toList = .ok n := by decide +kernel
  exact digits ⟨c.toNat, hc⟩

theorem escape_control {c : Char} (hc : c.toNat < 0x20) (rest : List Char) :
    escape ('x' :: ((hexPadded 2 c.toNat).toList ++ rest)) = .ok (c, 3) := by
  obtain ⟨hl, hd⟩ := hexPadded_control hc
  have hv : c.toNat.isValidChar := c.valid
  rw [escape, show simple? 'x' = none from rfl]
  dsimp only
  rw [if_pos rfl, hexEscape, hexDigits?_append hl hd]
  dsimp only
  rw [if_pos hv, Char.ofNat_toNat]

/-- A character as it is written, and then the rest of the body. -/
theorem body_escapeChar {c : Char} (hc : c ≠ '\x00') {cs text : List Char} {n : Nat}
    (h : body '"' cs = .ok (text, n)) :
    body '"' (escapeChar c ++ cs) = .ok (c :: text, (escapeChar c).length + n) := by
  -- All escapes are read back alike: the backslash, then `escape`, then the rest.
  have escaped {e : List Char} (he : escape (e ++ cs) = .ok (c, e.length)) :
      body '"' ('\\' :: e ++ cs) = .ok (c :: text, ('\\' :: e).length + n) := by
    rw [List.cons_append, body, if_neg (by decide), if_pos rfl, he]
    dsimp only
    rw [List.drop_left, h]
    dsimp only
    rw [List.length_cons, Nat.add_comm 1]
  rw [escapeChar]
  split
  case isTrue h =>
    subst h
    exact escaped (e := ['n']) rfl
  split
  case isTrue h =>
    subst h
    exact escaped (e := ['r']) rfl
  split
  case isTrue h =>
    subst h
    exact escaped (e := ['t']) rfl
  split
  case isTrue h =>
    subst h
    exact escaped (e := ['\\']) rfl
  split
  case isTrue h =>
    subst h
    exact escaped (e := ['"']) rfl
  split
  case isTrue h =>
    have he := escaped (e := 'x' :: (hexPadded 2 c.toNat).toList) (by
      rw [List.length_cons, (hexPadded_control h).1]
      exact escape_control h cs)
    rwa [List.cons_append, List.singleton_append]
  case isFalse hb hq _ =>
    rw [List.singleton_append, body, if_neg hq, if_neg hb, h]
    rfl

theorem body_escape {s : List Char} (hs : '\x00' ∉ s) (rest : List Char) :
    body '"' (s.flatMap escapeChar ++ '"' :: rest) = .ok (s, (s.flatMap escapeChar).length) := by
  induction s with
  | nil =>
    rw [List.flatMap_nil, List.nil_append, body, if_pos rfl]
    rfl
  | cons c s ih =>
    rw [List.mem_cons, not_or] at hs
    rw [List.flatMap_cons, List.append_assoc, List.length_append]
    exact body_escapeChar (Ne.symm hs.1) (ih hs.2)

end Quoted

def Text.literal (text : String) : String := "\"" ++ Text.escape text ++ "\""

/-- The literal of the text is read as the text, with nothing of what follows. -/
structure ReadsBack (text : String) : Prop where
  body (rest : List Char) : Quoted.body '"' ((Text.escape text).toList ++ '"' :: rest) =
      .ok (text.toList, (Text.escape text).length)
  token (rest : List Char) : Lexer.tokensAt ((Text.literal text).toList ++ rest) =
      .ok [(.text text, (Text.literal text).toList)]
  whole (file : String) : ∃ place, tokenize (Text.literal text) file =
    .ok [⟨.text text, {}, (Text.literal text).utf8ByteSize⟩, ⟨.eof, place, (Text.literal text).utf8ByteSize⟩]

theorem toList_literal (text : String) :
    (Text.literal text).toList = '"' :: ((Text.escape text).toList ++ ['"']) := by
  simp [Text.literal]

theorem body_literal {text : String} (h : '\x00' ∉ text.toList) (rest : List Char) :
    Quoted.body '"' ((Text.escape text).toList ++ '"' :: rest) = .ok (text.toList, (Text.escape text).length) := by
  rw [← String.length_toList, Text.escape, String.toList_ofList]
  exact Quoted.body_escape h rest

theorem tokensAt_literal {text : String} (h : '\x00' ∉ text.toList) (rest : List Char) :
    Lexer.tokensAt ((Text.literal text).toList ++ rest) = .ok [(.text text, (Text.literal text).toList)] := by
  have hword (cs : List Char) : Word.take? ('"' :: cs) = none := by cases cs <;> rfl
  have htake : ((Text.escape text).toList ++ '"' :: rest).take ((Text.escape text).length + 1) =
      (Text.escape text).toList ++ ['"'] := by
    rw [← String.length_toList, List.take_length_add_append, List.take_succ_cons, List.take_zero]
  rw [toList_literal, List.cons_append, List.append_assoc, List.singleton_append, Lexer.tokensAt,
    if_neg (by decide), hword]
  simp only [if_true, body_literal h, htake, String.ofList_toList]

theorem tokenize_literal {text : String} (h : '\x00' ∉ text.toList) (file : String) :
    ∃ place, tokenize (Text.literal text) file =
    .ok [⟨.text text, {}, (Text.literal text).utf8ByteSize⟩, ⟨.eof, place, (Text.literal text).utf8ByteSize⟩] := by
  refine ⟨Place.after {} (Text.literal text).toList, ?_⟩
  have hoffset : (Place.after {} (Text.literal text).toList).offset = (Text.literal text).utf8ByteSize := by
    rw [Place.offset_after, length_utf8_toList]
    exact Nat.zero_add _
  have hcovered : Lexer.covered [(Token.text text, (Text.literal text).toList)] =
      (Text.literal text).toList.length := by
    rw [Lexer.covered_eq, List.flatMap_cons, List.flatMap_nil, List.append_nil]
  have htokens := tokensAt_literal h []
  rw [List.append_nil] at htokens
  rw [tokenize, ← hoffset]
  rw [toList_literal] at htokens hcovered ⊢
  rw [Lexer.scan, if_neg (by decide), htokens]
  -- Nothing is left behind the token.
  simp only [Lexer.placeAll, hcovered, List.length_cons, Nat.add_sub_cancel, List.drop_length]
  rw [Lexer.scan]
  rfl

theorem readsBack_of_nul {text : String} (h : '\x00' ∉ text.toList) : ReadsBack text :=
  ⟨body_literal h, tokensAt_literal h, tokenize_literal h⟩

/-! ## Texts in memory -/

theorem Memory.zero_not_mem_textBytes (m : Memory) (addr : UInt64) (n : Nat) : 0 ∉ m.textBytes addr n := by
  induction n generalizing addr with
  | zero => nofun
  | succ n ih =>
    rw [textBytes]
    split
    case isTrue => nofun
    case isFalse h => exact List.not_mem_cons_of_ne_of_not_mem (Ne.symm h) (ih (addr + 1))

namespace Text

/-- The number is that of a character other than zero, whichever `n` bytes come to it. -/
def Leads (n value : Nat) : Prop := ∀ r < 64 ^ n, 0 < value * 64 ^ n + r ∧ (value * 64 ^ n + r).isValidChar

theorem ofNat_ne_nul {n : Nat} (h : 0 < n ∧ n.isValidChar) : Char.ofNat n ≠ '\x00' := by
  intro he
  rw [Char.ofNat, dif_pos h.2] at he
  exact h.1.ne' (congrArg Char.toNat he)

theorem Leads.of_range {n v : Nat} (lo hi : Nat) (hlo : lo ≤ v) (hhi : v ≤ hi) (h0 : 0 < lo * 64 ^ n)
    (hr : (hi + 1) * 64 ^ n ≤ 0xd800 ∨ 0xe000 ≤ lo * 64 ^ n ∧ (hi + 1) * 64 ^ n ≤ 0x110000) : Leads n v := by
  intro r h
  have hl : lo * 64 ^ n ≤ v * 64 ^ n := Nat.mul_le_mul_right _ hlo
  have hh : v * 64 ^ n + r < (hi + 1) * 64 ^ n := by
    calc v * 64 ^ n + r
      _ < v * 64 ^ n + 64 ^ n := Nat.add_lt_add_left h _
      _ = (v + 1) * 64 ^ n := (Nat.succ_mul _ _).symm
      _ ≤ (hi + 1) * 64 ^ n := Nat.mul_le_mul_right _ (Nat.succ_le_succ hhi)
  exact ⟨by omega, hr.imp (by omega) (by omega)⟩

theorem Leads.next {n value d : Nat} (h : Leads (n + 1) value) (hd : d < 64) : Leads n (value * 64 + d) := by
  intro r hr
  have he : value * 64 ^ (n + 1) + (d * 64 ^ n + r) = (value * 64 + d) * 64 ^ n + r := by ring
  have hlt : d * 64 ^ n + r < 64 ^ (n + 1) := by
    calc d * 64 ^ n + r
      _ < d * 64 ^ n + 64 ^ n := Nat.add_lt_add_left hr _
      _ = (d + 1) * 64 ^ n := by ring
      _ ≤ 64 * 64 ^ n := Nat.mul_le_mul_right _ hd
      _ = 64 ^ (n + 1) := by ring
  exact he ▸ h _ hlt

theorem continuation_ne_nul {n value : Nat} (h : Leads n value) (bs : List UInt8) :
    (continuation value 0x80 0xBF n bs).1 ≠ '\x00' := by
  induction n generalizing value bs with
  | zero =>
    have := h 0 (by decide)
    rw [pow_zero, Nat.mul_one, Nat.add_zero] at this
    exact ofNat_ne_nul this
  | succ n ih =>
    cases bs with
    | nil => exact (by decide : replacement ≠ '\x00')
    | cons b bs =>
      rw [continuation]
      split
      case isTrue hb => exact ih (h.next (by omega)) bs
      case isFalse => exact (by decide : replacement ≠ '\x00')

/-- The first byte behind a lead byte has a range of its own. -/
theorem leadInfo?_leads {b value count low high : Nat} (h : leadInfo? b = some (value, count, low, high)) :
    ∃ n, count = n + 1 ∧ ∀ d, low ≤ d → d ≤ high → d < 0xC0 ∧ Leads n (value * 64 + (d - 0x80)) := by
  unfold leadInfo? at h
  split_ifs at h <;> simp only [Option.some.injEq, Prod.mk.injEq] at h <;> obtain ⟨rfl, rfl, rfl, rfl⟩ := h
  · exact ⟨0, rfl, fun d _ _ => ⟨by omega, .of_range 0x80 0x7FF (by omega) (by omega) (by decide) (by decide)⟩⟩
  · exact ⟨1, rfl, fun d _ _ => ⟨by omega, .of_range 0x20 0x3F (by omega) (by omega) (by decide) (by decide)⟩⟩
  · exact ⟨1, rfl, fun d _ _ => ⟨by omega, .of_range 0x340 0x35F (by omega) (by omega) (by decide) (by decide)⟩⟩
  · rcases Nat.lt_or_ge b 0xED with hb | hb
    · exact ⟨1, rfl, fun d _ _ => ⟨by omega, .of_range 0x40 0x33F (by omega) (by omega) (by decide) (by decide)⟩⟩
    · exact ⟨1, rfl, fun d _ _ => ⟨by omega, .of_range 0x380 0x3FF (by omega) (by omega) (by decide) (by decide)⟩⟩
  · exact ⟨2, rfl, fun d _ _ => ⟨by omega, .of_range 0x10 0x3F (by omega) (by omega) (by decide) (by decide)⟩⟩
  · exact ⟨2, rfl, fun d _ _ => ⟨by omega, .of_range 0x40 0xFF (by omega) (by omega) (by decide) (by decide)⟩⟩
  · exact ⟨2, rfl, fun d _ _ => ⟨by omega, .of_range 0x100 0x10F (by omega) (by omega) (by decide) (by decide)⟩⟩

theorem decodeFirst_ne_nul {b : UInt8} (hb : b ≠ 0) (bs : List UInt8) : (decodeFirst b bs).1 ≠ '\x00' := by
  have hreplacement : replacement ≠ '\x00' := by decide
  have hpos : 0 < b.toNat := Nat.pos_of_ne_zero fun h => hb (UInt8.toNat_inj.mp h)
  rw [decodeFirst]
  split
  case isTrue h => exact ofNat_ne_nul ⟨hpos, .inl (by omega)⟩
  case isFalse =>
    split
    case h_2 => exact hreplacement
    case h_1 value count low high hlead =>
      obtain ⟨n, rfl, hleads⟩ := leadInfo?_leads hlead
      cases bs with
      | nil => exact hreplacement
      | cons d bs =>
        rw [continuation]
        split
        case isTrue hd => exact continuation_ne_nul (hleads _ hd.1 hd.2).2 bs
        case isFalse => exact hreplacement

theorem continuation_suffix (value low high n : Nat) (bs : List UInt8) :
    (continuation value low high n bs).2 <:+ bs := by
  induction n generalizing value low high bs with
  | zero => exact List.suffix_rfl
  | succ n ih =>
    cases bs with
    | nil => exact List.suffix_rfl
    | cons b bs =>
      rw [continuation]
      split
      case isTrue => exact (ih ..).trans (List.suffix_cons b bs)
      case isFalse => exact List.suffix_rfl

theorem decodeFirst_suffix (b : UInt8) (bs : List UInt8) : (decodeFirst b bs).2 <:+ bs := by
  rw [decodeFirst]
  split
  case isTrue => exact List.suffix_rfl
  case isFalse =>
    split
    case h_1 => exact continuation_suffix ..
    case h_2 => exact List.suffix_rfl

theorem nul_not_mem_decodeLossy {bs : List UInt8} (h : 0 ∉ bs) : '\x00' ∉ decodeLossy bs := by
  fun_induction decodeLossy bs with
  | case1 => nofun
  | case2 b bs _ ih =>
    rw [List.mem_cons, not_or] at h
    exact List.not_mem_cons_of_ne_of_not_mem (decodeFirst_ne_nul (Ne.symm h.1) bs).symm
      (ih fun h0 => h.2 ((decodeFirst_suffix b bs).subset h0))

end Text

theorem Exec.textAt_ok (addr : UInt64) (m : Machine) :
    ∃ bytes m', textAt addr m = .ok bytes m' ∧ m.SameButFault m' ∧ 0 ∉ bytes := by
  unfold textAt
  cases Memory.isValid addr with
  | true => exact ⟨_, _, rfl, ⟨m.pending, rfl⟩, m.memory.zero_not_mem_textBytes addr textLimit⟩
  | false => exact ⟨[], _, rfl, ⟨_, rfl⟩, nofun⟩

/-! ## Reading back -/

/-- The literal of each text without the character zero is read as that text, and what is shown for a text in
memory is such a literal. -/
theorem text_reads_back : (∀ text : String, '\x00' ∉ text.toList → ReadsBack text) ∧
    ∀ (m : Machine) (type : TypeId) (addr : UInt64) (n : Nat), Exec.isText m.types type = true → addr ≠ 0 →
      ∃ text m', Exec.render (n + 1) type addr m = .ok (Text.literal text) m' ∧ m.SameButFault m' ∧
        '\x00' ∉ text.toList ∧ ReadsBack text := by
  refine ⟨fun _ => readsBack_of_nul, fun m type addr n htext h0 => ?_⟩
  obtain ⟨bytes, m', hat, hm, hbytes⟩ := Exec.textAt_ok addr m
  have hnul : '\x00' ∉ (Text.ofBytesLossy bytes).toList := by
    rw [Text.ofBytesLossy, String.toList_ofList]
    exact Text.nul_not_mem_decodeLossy hbytes
  refine ⟨Text.ofBytesLossy bytes, m', ?_, hm, hnul, readsBack_of_nul hnul⟩
  rw [Exec.render_succ n type addr (show m.SameButFault m from ⟨m.pending, rfl⟩), if_pos (by simp [htext, h0])]
  exact Exec.bind_ok hat

/-- Control characters before characters that are digits, quotes and backslashes, and a text of a machine that
has characters and pointers to them. -/
theorem text_reads_back_digits : ReadsBack "\x01f\x1f9\"\\\n7" ∧
    ∃ text m', Exec.render 1 1 0x020000000000
    { types := ⟨#[TypeTable.plainType .int8, { kind := .pointer, shape := .pointer 0 }], ∅, ∅, ∅⟩ } =
      .ok (Text.literal text) m' ∧ ReadsBack text := by
  refine ⟨text_reads_back.1 _ (by decide), ?_⟩
  obtain ⟨text, m', hr, -, -, hb⟩ := text_reads_back.2
    { types := ⟨#[TypeTable.plainType .int8, { kind := .pointer, shape := .pointer 0 }], ∅, ∅, ∅⟩ } 1
      0x020000000000 0 rfl (by decide)
  exact ⟨text, m', hr, hb⟩

end LevelScript
