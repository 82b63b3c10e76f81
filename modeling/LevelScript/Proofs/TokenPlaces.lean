import LevelScript.Proofs.TokenText

/-!
# Where tokens stand

The spans of the tokens of a text lie one behind the other at the borders of its characters. All bytes that they
leave out are blanks, and the place of a token counts the newlines and the bytes in front of it.
-/

namespace LevelScript

def utf8 (cs : List Char) : List UInt8 := cs.flatMap String.utf8EncodeChar

/-- The place behind some bytes of a text: rows count the newlines, columns the bytes behind the last of them. -/
def Place.behind (bytes : List UInt8) : Place :=
  ⟨bytes.length, 1 + bytes.count 10, 1 + (bytes.reverse.takeWhile (· != 10)).length⟩

/-! ## Bytes of characters -/

theorem utf8_append (a b : List Char) : utf8 (a ++ b) = utf8 a ++ utf8 b := List.flatMap_append

theorem utf8_cons (c : Char) (cs : List Char) : utf8 (c :: cs) = String.utf8EncodeChar c ++ utf8 cs := rfl

theorem utf8_toList (s : String) : utf8 s.toList = s.toUTF8.data.toList := by
  rw [String.toUTF8_eq_toByteArray, ← String.utf8Encode_toList, List.utf8Encode, List.toList_data_toByteArray]
  rfl

theorem length_utf8_toList (s : String) : (utf8 s.toList).length = s.utf8ByteSize := by
  rw [utf8_toList, Array.length_toList, ← String.size_toByteArray]
  rfl

theorem utf8_ne_nil {cs : List Char} (h : cs ≠ []) : utf8 cs ≠ [] := by
  cases cs with
  | nil => exact absurd rfl h
  | cons c cs =>
    rw [utf8_cons]
    exact List.append_ne_nil_of_left_ne_nil String.utf8EncodeChar_ne_nil _

theorem utf8_newline : String.utf8EncodeChar '\n' = [10] := by decide

theorem le_of_mem_utf8EncodeChar {c : Char} (hc : 0x7f < c.val.toNat) :
    ∀ b ∈ String.utf8EncodeChar c, 128 ≤ b.toNat := by
  simp only [String.utf8EncodeChar, if_neg (Nat.not_le.mpr hc)]
  split
  · simp only [List.forall_mem_cons, UInt8.toNat_ofNat']
    exact ⟨by omega, by omega, nofun⟩
  split
  · simp only [List.forall_mem_cons, UInt8.toNat_ofNat']
    exact ⟨by omega, by omega, by omega, nofun⟩
  · simp only [List.forall_mem_cons, UInt8.toNat_ofNat']
    exact ⟨by omega, by omega, by omega, by omega, nofun⟩

theorem eq_newline_of_mem {c : Char} (h : 10 ∈ String.utf8EncodeChar c) : c = '\n' := by
  by_cases hc : c.val.toNat ≤ 0x7f
  · simp only [String.utf8EncodeChar, if_pos hc, List.mem_singleton] at h
    have hn : c.val.toNat % 256 = 10 := (congrArg UInt8.toNat h).symm
    exact Char.ext (UInt32.toNat_inj.mp (by change c.val.toNat = 10; omega))
  · exact absurd (le_of_mem_utf8EncodeChar (Nat.not_le.mp hc) 10 h) (by decide)

theorem utf8_blank {c : Char} (h : isBlank c = true) : ∃ b, String.utf8EncodeChar c = [b] ∧
    b ∈ [32, 9, 13, 10] := by
  simp only [isBlank, Bool.or_eq_true, beq_iff_eq] at h
  obtain ((rfl | rfl) | rfl) | rfl := h <;> exact ⟨_, rfl, by decide⟩

theorem isValid_length_utf8 {source : String} {before rest : List Char} (h : source.toList = before ++ rest) :
    String.Pos.Raw.IsValid source ⟨(utf8 before).length⟩ := by
  refine String.Pos.Raw.isValid_iff_exists_append.mpr ⟨String.ofList before, String.ofList rest, ?_, ?_⟩
  · rw [← String.ofList_append, ← h, String.ofList_toList]
  · rw [String.rawEndPos, ← length_utf8_toList, String.toList_ofList]

/-! ## Places -/

theorem Place.behind_step (bytes : List UInt8) (c : Char) :
    (Place.behind bytes).step c = .behind (bytes ++ String.utf8EncodeChar c) := by
  rw [Place.step]
  split
  case isTrue h =>
    rw [h, utf8_newline]
    simp [Place.behind, Nat.add_assoc]
  case isFalse h =>
    have hc : ∀ b ∈ (String.utf8EncodeChar c).reverse, (b != 10) = true := fun b hb =>
      bne_iff_ne.mpr fun he => h (eq_newline_of_mem (he ▸ List.mem_reverse.mp hb))
    have h0 : (String.utf8EncodeChar c).count 10 = 0 := List.count_eq_zero.mpr fun hm => h (eq_newline_of_mem hm)
    simp only [Place.behind, List.length_append, List.count_append, h0, List.reverse_append,
      List.takeWhile_append_of_pos hc,
      List.length_reverse, String.length_utf8EncodeChar, Nat.add_zero, Nat.add_assoc, Nat.add_comm c.utf8Size]

theorem Place.after_behind (bytes : List UInt8) (cs : List Char) :
    (Place.behind bytes).after cs = .behind (bytes ++ utf8 cs) := by
  induction cs generalizing bytes with
  | nil => rw [utf8, List.flatMap_nil, List.append_nil]; rfl
  | cons c cs ih => rw [Place.after, List.foldl_cons, behind_step, ← Place.after, ih, utf8_cons, List.append_assoc]

theorem Place.offset_step (p : Place) (c : Char) :
    (p.step c).offset = p.offset + (String.utf8EncodeChar c).length := by
  rw [step]
  split
  case isTrue h => rw [h, utf8_newline]; rfl
  case isFalse => rw [String.length_utf8EncodeChar]

theorem Place.offset_after (p : Place) (cs : List Char) : (p.after cs).offset = p.offset + (utf8 cs).length := by
  induction cs generalizing p with
  | nil => rfl
  | cons c cs ih =>
    rw [after, List.foldl_cons, ← after, ih, offset_step, utf8_cons, List.length_append, Nat.add_assoc]

theorem Place.after_append (p : Place) (a b : List Char) : p.after (a ++ b) = (p.after a).after b :=
  List.foldl_append

/-! ## Spans -/

namespace Lexer

variable {before cs : List Char} {ls : List Lexeme}

def StandsBehind (source before : List Char) (l : Lexeme) : Prop :=
  ∃ part rest, source = before ++ (part ++ rest) ∧ l.place = .behind (utf8 before) ∧
    l.stop = (utf8 (before ++ part)).length ∧ (l.token.Covers part ∨ l.token = .eof ∧ part = [] ∧ rest = [])

theorem Tiled.stands (h : Tiled (.behind (utf8 before)) cs ls) :
    ∀ l ∈ ls, ∃ more, StandsBehind (before ++ cs) more l := by
  generalize hp : Place.behind (utf8 before) = p at h
  induction h generalizing before with
  | eof p =>
    subst hp
    refine List.forall_mem_cons.mpr ⟨⟨before, [], [], rfl, rfl, ?_, .inr ⟨rfl, rfl, rfl⟩⟩, nofun⟩
    rw [List.append_nil]
    rfl
  | @blank p c cs ls hc _ ih =>
    subst hp
    have hplace : Place.behind (utf8 (before ++ [c])) = (Place.behind (utf8 before)).step c := by
      rw [Place.behind_step, utf8_append]
      simp [utf8]
    intro l hl
    have hs := @ih (before ++ [c]) hplace l hl
    rwa [List.append_assoc] at hs
  | @token p t part cs ls ht _ ih =>
    subst hp
    have hplace : (Place.behind (utf8 before)).after part = .behind (utf8 (before ++ part)) := by
      rw [Place.after_behind, utf8_append]
    refine List.forall_mem_cons.mpr ⟨⟨before, part, cs, rfl, rfl, ?_, .inl ht⟩, fun l hl => ?_⟩
    · rw [hplace]
      rfl
    · have hs := @ih (before ++ part) hplace.symm l hl
      rwa [List.append_assoc] at hs

theorem Tiled.ends {p : Place} (h : Tiled p cs ls) :
    ∃ tokens eof, ls = tokens ++ [eof] ∧ eof.token = .eof ∧ eof.place = p.after cs ∧
    eof.stop = (p.after cs).offset ∧
      ∀ l ∈ tokens, l.token ≠ .eof := by
  induction h with
  | eof p => exact ⟨[], _, rfl, rfl, rfl, rfl, nofun⟩
  | blank _ _ ih => exact ih
  | @token p t part cs ls ht _ ih =>
    obtain ⟨tokens, eof, rfl, he, hp, hs, hall⟩ := ih
    rw [← Place.after_append] at hp hs
    exact ⟨_ :: tokens, eof, rfl, he, hp, hs, List.forall_mem_cons.mpr ⟨ht.ne_eof, hall⟩⟩

theorem Tiled.apart {p : Place} (h : Tiled p cs ls) :
    (∀ l ∈ ls, p.offset ≤ l.span.start) ∧ ls.Pairwise (fun a b => a.span.stop ≤ b.span.start) := by
  induction h with
  | eof p => exact ⟨List.forall_mem_cons.mpr ⟨Nat.le_refl _, nofun⟩, .cons nofun .nil⟩
  | @blank p c cs ls _ _ ih =>
    refine ⟨fun l hl => Nat.le_trans ?_ (ih.1 l hl), ih.2⟩
    rw [Place.offset_step]
    exact Nat.le_add_right _ _
  | @token p t part cs ls _ _ ih =>
    refine ⟨List.forall_mem_cons.mpr ⟨Nat.le_refl _, fun l hl => Nat.le_trans ?_ (ih.1 l hl)⟩, .cons ih.1 ih.2⟩
    rw [Place.offset_after]
    exact Nat.le_add_right _ _

/-- A byte that no span covers is a blank. -/
theorem Tiled.between {p : Place} (h : Tiled p cs ls) : ∀ i b, (utf8 cs)[i]? = some b →
    (∀ l ∈ ls, ¬(l.span.start ≤ p.offset + i ∧ p.offset + i < l.span.stop)) → b ∈ [32, 9, 13, 10] := by
  induction h with
  | eof => nofun
  | @blank p c cs ls hc _ ih =>
    intro i b hb hout
    obtain ⟨d, hd, hm⟩ := utf8_blank hc
    rw [utf8_cons, hd] at hb
    cases i with
    | zero =>
      cases hb
      exact hm
    | succ i =>
      refine ih i b hb ?_
      rw [Place.offset_step, hd, List.length_singleton, Nat.add_assoc, Nat.add_comm 1]
      exact hout
  | @token p t part cs ls _ _ ih =>
    intro i b hb hout
    rw [List.forall_mem_cons] at hout
    obtain ⟨hfirst, hout⟩ := hout
    rw [utf8_append] at hb
    have hspan : ¬(p.offset ≤ p.offset + i ∧ p.offset + i < (p.after part).offset) := hfirst
    rw [Place.offset_after] at hspan
    have hi : (utf8 part).length ≤ i := by omega
    rw [List.getElem?_append_right hi] at hb
    refine ih _ b hb ?_
    rwa [Place.offset_after, Nat.add_assoc, Nat.add_sub_cancel' hi]

end Lexer

/-- The lexemes of a text lie one behind the other, each from a border of characters to a later one, and cover
all but blanks. The last one is the end, and the place of each is that of the byte where it starts. -/
theorem tokens_tile {source file : String} {ls : List Lexeme} (h : tokenize source file = .ok ls) :
    let bytes := source.toUTF8.data.toList
    ∃ tokens eof, ls = tokens ++ [eof] ∧ eof.token = .eof ∧ eof.span = ⟨bytes.length, bytes.length⟩ ∧
      (∀ l ∈ tokens, l.token ≠ .eof ∧ l.span.start < l.span.stop ∧
        String.Pos.Raw.IsValid source ⟨l.span.start⟩ ∧ String.Pos.Raw.IsValid source ⟨l.span.stop⟩ ∧
        ∃ part, l.token.Covers part ∧ (bytes.take l.span.stop).drop l.span.start = utf8 part) ∧
      ls.Pairwise (fun a b => a.span.stop ≤ b.span.start) ∧
      (∀ i b, bytes[i]? = some b → (∀ l ∈ tokens, ¬(l.span.start ≤ i ∧ i < l.span.stop)) → b ∈ [32, 9, 13, 10]) ∧
      ∀ l ∈ ls, l.place = .behind (bytes.take l.span.start) := by
  intro bytes
  have hbytes : bytes = utf8 source.toList := (utf8_toList source).symm
  have ht : Lexer.Tiled (.behind (utf8 [])) source.toList ls := Lexer.scan_tiled h
  have hstands : ∀ l ∈ ls, ∃ before, Lexer.StandsBehind source.toList before l := ht.stands
  have hend : (Place.behind (utf8 [])).after source.toList =
    .behind bytes := by rw [Place.after_behind, hbytes]; rfl
  obtain ⟨tokens, eof, rfl, he, hp, hs, htokens⟩ := ht.ends
  rw [hend] at hp hs
  refine ⟨tokens, eof, rfl, he, ?_, fun l hl => ?_, ht.apart.2, fun i b hb hout => ?_, fun l hl => ?_⟩
  · rw [Lexeme.span, hp, hs]
    rfl
  · obtain ⟨before, part, rest, hsource, hplace, hstop, hcovers | ⟨he, -⟩⟩ := hstands l (List.mem_append_left _ hl)
    case inr => exact absurd he (htokens l hl)
    have hstart : l.span.start = (utf8 before).length := congrArg Place.offset hplace
    have hstop : l.span.stop = (utf8 (before ++ part)).length := hstop
    have hpos := List.length_pos_iff.mpr (utf8_ne_nil hcovers.ne_nil)
    refine ⟨htokens l hl, ?_, ?_, ?_, part, hcovers, ?_⟩
    · rw [hstart, hstop, utf8_append, List.length_append]
      omega
    · rw [hstart]
      exact isValid_length_utf8 hsource
    · rw [hstop]
      exact isValid_length_utf8 (hsource.trans (List.append_assoc ..).symm)
    · rw [hstart, hstop, hbytes, hsource, ← List.append_assoc, utf8_append _ rest, List.take_left,
        utf8_append, List.drop_left]
  · refine ht.between i b (hbytes ▸ hb) fun l hl => ?_
    rw [show (Place.behind (utf8 [])).offset + i = i from Nat.zero_add i]
    rw [List.mem_append, List.mem_singleton] at hl
    obtain hl | rfl := hl
    · exact hout l hl
    · show ¬(l.place.offset ≤ i ∧ i < l.stop)
      rw [hp, hs]
      omega
  · obtain ⟨before, part, rest, hsource, hplace, -⟩ := hstands l hl
    have hstart : l.span.start = (utf8 before).length := congrArg Place.offset hplace
    rw [hplace, hstart, hbytes, hsource, utf8_append, List.take_left]

theorem tokens_tile_split :
    let source := "x = \"é\";\n 'a' 5.x"
    ∃ ls, tokenize source "" = .ok ls ∧
      ls.map Lexeme.span = [⟨0, 1⟩, ⟨2, 3⟩, ⟨4, 8⟩, ⟨8, 9⟩, ⟨11, 14⟩, ⟨15, 16⟩, ⟨16, 17⟩, ⟨17, 18⟩, ⟨18, 18⟩] ∧
      ls.Pairwise (fun a b => a.span.stop ≤ b.span.start) ∧
      ∀ l ∈ ls, l.place = .behind (source.toUTF8.data.toList.take l.span.start) := by
  intro source
  have run : (tokenize source "").map (·.map Lexeme.span) =
      .ok [⟨0, 1⟩, ⟨2, 3⟩, ⟨4, 8⟩, ⟨8, 9⟩, ⟨11, 14⟩, ⟨15, 16⟩, ⟨16, 17⟩, ⟨17, 18⟩, ⟨18, 18⟩] := by decide +kernel
  cases h : tokenize source "" with
  | error e =>
    rw [h] at run
    cases run
  | ok ls =>
    rw [h] at run
    obtain ⟨_, _, _, _, _, _, hapart, _, hplace⟩ := tokens_tile h
    exact ⟨ls, rfl, Except.ok.inj run, hapart, hplace⟩

end LevelScript
