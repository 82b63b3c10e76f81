import LevelScript.Proofs.ConstVariants
import LevelScript.Proofs.Outlines

/-!
# Types as texts

Wherever types lead, also back to where they came from, the walk that writes a type out ends: each step opens
a type that is not open, or writes out a struct for the first time. So every type of a table that has come
about by requests is shown as the text of its outline.
-/

namespace LevelScript

open TypeTable

theorem TypeInfo.Regular.plainText {t : TypeInfo} {kind : Kind} (h : t.Regular) (hk : t.shape.kind? = some kind) :
    plainText t = none := by
  rw [TypeTable.plainText, h.kind hk]
  cases hshape : t.shape <;> rw [hshape] at hk <;> cases hk <;> rfl

namespace TypeTable

/-! ## One step of the walk -/

section
variable {ts : TypeTable} {names : Names} {n k : Nat} {opened written : List TypeId} {id : TypeId}

/-- The walk first looks at what has been written. -/
theorem getThe_bind {f : List TypeId → Shown String} :
    (getThe (List TypeId) >>= f : Shown String) written = f written written := rfl

theorem render_again (h : written.idxOf? id = some k) :
    ts.render names (n + 1) opened id written = ((Outline.again id (k + 1)).text ts names, written) := by
  rw [render, getThe_bind, h]
  rfl

theorem render_cycle (h : id ∉ written) (ho : id ∈ opened) :
    ts.render names (n + 1) opened id written = ((Outline.cycle id).text ts names, written) := by
  rw [render, getThe_bind, List.idxOf?_eq_none_iff.mpr h]
  dsimp only
  rw [if_pos (List.contains_iff_mem.mpr ho)]
  rfl

/-- A type that is neither written nor open is written out. -/
theorem render_fresh (h : id ∉ written) (ho : id ∉ opened) :
    ts.render names (n + 1) opened id written = (let t := ts.get id
      match plainText t with
      | some text => (constText t ++ text, written)
      | none =>
        match t.shape with
        | .pointer base =>
          let r := ts.render names n (id :: opened) base written
          (constText t ++ r.1 ++ "#", r.2)
        | .function result params =>
          let r := ts.render names n (id :: opened) result written
          let r' := showParams names (ts.render names n (id :: opened)) params r.2
          (constText t ++ r.1 ++ (if t.flags.assignable then "<-$(" else "<-(") ++
            ", ".intercalate r'.1 ++ ")", r'.2)
        | .struct fields =>
          let r := showFields names (ts.render names n opened) fields (written ++ [id])
          (constText t ++ "struct S" ++ Nat.repr (written.length + 1) ++ " \x7b " ++ r.1 ++ "\x7d", r.2)
        | .deferred name => (constText t ++ "(defer " ++ names.text name ++ ")", written)
        | .parent depth => (constText t ++ "(parent " ++ Nat.repr depth ++ ")", written)
        | .plain => (constText t ++ "?", written)) := by
  rw [render, getThe_bind, List.idxOf?_eq_none_iff.mpr h]
  dsimp only
  rw [if_neg fun hc => ho (List.contains_iff_mem.mp hc)]
  cases plainText (ts.get id) with
  | some => rfl
  | none => cases (ts.get id).shape <;> rfl

theorem render_plain (h : id ∉ written) (ho : id ∉ opened) (hr : (ts.get id).Regular)
    (hs : (ts.get id).shape.isComposed = false) :
    ts.render names (n + 1) opened id written = ((Outline.plain id).text ts names, written) := by
  rw [render_fresh h ho, Outline.text, leafText]
  dsimp only
  cases hshape : (ts.get id).shape with
  | plain => cases plainText (ts.get id) <;> rfl
  | deferred | parent =>
    rw [hr.plainText (by rw [hshape]; rfl)]
    simp only [String.append_assoc]
  | pointer | function | struct =>
    rw [hshape] at hs
    cases hs

end

/-! ## How deep the walk goes -/

/-- The open types and the structs that are written out differ, and `n` more levels are more than there are
other types. -/
structure Room (ts : TypeTable) (n : Nat) (opened written : List TypeId) : Prop where
  nodup : (opened ++ written).Nodup
  inside : ∀ c ∈ opened ++ written, c < ts.size
  enough : ts.size < n + (opened ++ written).length

namespace Room

variable {ts : TypeTable} {n : Nat} {opened written : List TypeId} {id : TypeId}

theorem pos (h : ts.Room n opened written) : 0 < n := by
  have hle := length_le_size h.nodup h.inside
  have := h.enough
  omega

theorem opening (h : ts.Room (n + 1) opened written) (hid : id < ts.size) (hw : id ∉ written) (ho : id ∉ opened) :
    ts.Room n (id :: opened) written where
  nodup := List.nodup_cons.mpr ⟨List.mem_append.not.mpr (not_or.mpr ⟨ho, hw⟩), h.nodup⟩
  inside := List.forall_mem_cons.mpr ⟨hid, h.inside⟩
  enough := by
    have := h.enough
    rw [List.cons_append, List.length_cons]
    omega

theorem closing (h : ts.Room n (id :: opened) written) : ts.Room (n + 1) opened written where
  nodup := (List.nodup_cons.mp h.nodup).2
  inside := (List.forall_mem_cons.mp h.inside).2
  enough := by
    have := h.enough
    rw [List.cons_append, List.length_cons] at this
    omega

theorem writing (h : ts.Room (n + 1) opened written) (hid : id < ts.size) (hw : id ∉ written) (ho : id ∉ opened) :
    ts.Room n opened (written ++ [id]) := by
  have hperm : (opened ++ (written ++ [id])).Perm ((id :: opened) ++ written) := by
    rw [← List.append_assoc]
    exact List.perm_append_singleton id _
  have hopen := h.opening hid hw ho
  exact ⟨hperm.nodup_iff.mpr hopen.nodup, fun c hc => hopen.inside c (hperm.mem_iff.mp hc),
    by rw [hperm.length_eq]; exact hopen.enough⟩

theorem succ (h : ts.Room n opened written) : ts.Room (n + 1) opened written :=
  ⟨h.nodup, h.inside, by have := h.enough; omega⟩

end Room

/-! ## The whole walk -/

section
variable {ts : TypeTable} {names : Names} {n : Nat} {opened written written₁ written' : List TypeId} {c : TypeId}

theorem Draws.cons {p : Part} {ps : List Part} {o : Outline} {os : List Outline}
    (h : ts.Draws opened written [p] [o] written₁)
    (h' : ts.Draws opened written₁ ps os written') : ts.Draws opened written (p :: ps) (o :: os) written' := by
  cases h with
  | elided h =>
    cases h
    exact .elided h'
  | again hk h =>
    cases h
    exact .again hk h'
  | cycle hw ho h =>
    cases h
    exact .cycle hw ho h'
  | plain hw ho ht hs h =>
    cases h
    exact .plain hw ho ht hs h'
  | composed hw ho ht hs hn hb h =>
    cases h
    exact .composed hw ho ht hs hn hb h'
  | struct hw ho ht hs hb h =>
    cases h
    exact .struct hw ho ht hs hb h'

/-- The text of an outline which is drawn behind the structs `written`, and those that are written then. -/
def Drawn (ts : TypeTable) (names : Names) (n : Nat) (opened written : List TypeId) (p : Part)
    (r : String × List TypeId) : Prop :=
  ∃ o written', r = (o.text ts names, written') ∧ ts.Draws opened written [p] [o] written' ∧
    ts.Room n opened written'

/-- Whatever has been written, if there is room for the rest, the text of the type is that of an outline. -/
def Outlined (ts : TypeTable) (names : Names) (n : Nat) (opened : List TypeId)
    (render : TypeId → Shown String) (c : TypeId) : Prop :=
  ∀ written, ts.Room n opened written → ts.Drawn names n opened written { type := c } (render c written)

section
variable {r : TypeId → Shown String} (hr : ∀ c < ts.size, ts.Outlined names n opened r c)
include hr

theorem showParams_draws : ∀ {params : List Param} {written : List TypeId},
    (∀ p ∈ params, p.type < ts.size) → ts.Room n opened written → ∃ os written',
      showParams names r params written =
        (List.zipWith (fun p text => text ++ nameText names p.name) params (Outline.texts ts names os), written') ∧
      ts.Draws opened written (params.map fun p => { type := p.type }) os written' ∧ ts.Room n opened written'
  | [], written, _, h => ⟨[], written, rfl, .nil, h⟩
  | p :: ps, written, hp, h => by
    rw [List.forall_mem_cons] at hp
    obtain ⟨o, written₁, htext, hdraws, h₁⟩ := hr p.type hp.1 written h
    obtain ⟨os, written', htexts, hrest, h'⟩ := showParams_draws hp.2 h₁
    refine ⟨o :: os, written', ?_, hdraws.cons hrest, h'⟩
    rw [showParams]
    show (let a := r p.type written
      let b := showParams names r ps a.2
      ((a.1 ++ nameText names p.name) :: b.1, b.2)) = _
    rw [htext]
    dsimp only
    rw [htexts]
    rfl

omit hr in
theorem showFields_cons (f : Field) (fs : List Field) : showFields names r (f :: fs) written =
    (let a := (if f.inlined.getD 1 = 1 then r f.type else pure "..." : Shown String) written
    let b := showFields names r fs a.2
    (fieldText names f a.1 ++ b.1, b.2)) := by
  rw [showFields]
  by_cases hone : f.inlined.getD 1 = 1
  · rw [if_pos hone, if_pos hone]
    rfl
  · rw [if_neg hone, if_neg hone]
    rfl

/-- What a field holds none or many of is left out. -/
theorem fieldType_drawn {f : Field} (hf : f.type < ts.size) (h : ts.Room n opened written) :
    ts.Drawn names n opened written ⟨f.type, f.inlined.getD 1 == 1⟩
      ((if f.inlined.getD 1 = 1 then r f.type else pure "..." : Shown String) written) := by
  by_cases hone : f.inlined.getD 1 = 1
  · rw [if_pos hone, beq_iff_eq.mpr hone]
    exact hr f.type hf written h
  · rw [if_neg hone, beq_eq_false_iff_ne.mpr hone]
    exact ⟨.elided f.type, written, rfl, .elided .nil, h⟩

theorem showFields_draws : ∀ {fields : List Field} {written : List TypeId},
    (∀ f ∈ fields, f.type < ts.size) → ts.Room n opened written → ∃ os written',
      showFields names r fields written = (fieldsText names fields (Outline.texts ts names os), written') ∧
      ts.Draws opened written (TypeShape.struct fields).shownParts os written' ∧ ts.Room n opened written'
  | [], written, _, h => ⟨[], written, rfl, .nil, h⟩
  | f :: fs, written, hf, h => by
    rw [List.forall_mem_cons] at hf
    obtain ⟨o, written₁, htext, hdraws, h₁⟩ := fieldType_drawn hr hf.1 h
    obtain ⟨os, written', htexts, hrest, h'⟩ := showFields_draws hf.2 h₁
    refine ⟨o :: os, written', ?_, hdraws.cons hrest, h'⟩
    rw [showFields_cons, htext]
    dsimp only
    rw [htexts]
    rfl

end

section
variable (hr : ts.Regular) (hc : c < ts.size) (hw : c ∉ written) (ho : c ∉ opened)
  (hroom : ts.Room (n + 1) opened written)
include hc hw ho

theorem drawn_composed {shape : TypeShape} {below : List Outline} (hs : (ts.get c).shape = shape)
    (hcomposed : shape.isComposed = true)
    (hstruct : shape.kind? ≠ some .struct) (h : ts.Draws (c :: opened) written shape.shownParts below written') :
    ts.Draws opened written [{ type := c }] [.composed c below] written' := by
  subst hs
  exact .composed hw ho (lookup_of_lt hc) hcomposed hstruct h .nil

include hr hroom

theorem pointer_drawn {base : TypeId} (hs : (ts.get c).shape = .pointer base)
    (h : ts.Outlined names n (c :: opened) (ts.render names n (c :: opened)) base) :
    ts.Drawn names (n + 1) opened written { type := c } (ts.render names (n + 1) opened c written) := by
  obtain ⟨o, written', htext, hdraws, h'⟩ := h written (hroom.opening hc hw ho)
  refine ⟨.composed c [o], written', ?_, drawn_composed hc hw ho hs rfl nofun hdraws, h'.closing⟩
  have hnone : plainText (ts.get c) = none := (hr c).plainText (by rw [hs]; rfl)
  rw [render_fresh hw ho]
  simp only [hnone, hs, htext, Outline.text, Outline.texts, composedText, String.append_assoc]

theorem function_drawn {result : TypeId} {params : List Param} (hs : (ts.get c).shape = .function result params)
    (hresult : result < ts.size) (hp : ∀ p ∈ params, p.type < ts.size)
    (h : ∀ c' < ts.size, ts.Outlined names n (c :: opened) (ts.render names n (c :: opened)) c') :
    ts.Drawn names (n + 1) opened written { type := c } (ts.render names (n + 1) opened c written) := by
  obtain ⟨o, written₁, htext, hdraws, h₁⟩ := h result hresult written (hroom.opening hc hw ho)
  obtain ⟨os, written', htexts, hrest, h'⟩ := showParams_draws h hp h₁
  refine ⟨.composed c (o :: os), written', ?_, drawn_composed hc hw ho hs rfl nofun (hdraws.cons hrest), h'.closing⟩
  have hnone : plainText (ts.get c) = none := (hr c).plainText (by rw [hs]; rfl)
  rw [render_fresh hw ho]
  simp only [hnone, hs, htext, htexts, Outline.text, Outline.texts, composedText, String.append_assoc]

theorem struct_drawn {fields : List Field} (hs : (ts.get c).shape = .struct fields)
    (hf : ∀ f ∈ fields, f.type < ts.size)
    (h : ∀ c' < ts.size, ts.Outlined names n opened (ts.render names n opened) c') :
    ts.Drawn names (n + 1) opened written { type := c } (ts.render names (n + 1) opened c written) := by
  obtain ⟨os, written', htexts, hdraws, h'⟩ := showFields_draws h hf (hroom.writing hc hw ho)
  refine ⟨.struct c (written.length + 1) os, written', ?_, ?_, h'.succ⟩
  · have hnone : plainText (ts.get c) = none := (hr c).plainText (by rw [hs]; rfl)
    rw [render_fresh hw ho]
    simp only [hnone, hs, htexts, Outline.text, TypeInfo.fields]
  · exact .struct hw ho (lookup_of_lt hc) (by rw [hs]; rfl) (by rwa [hs]) .nil

end

/-- The induction is on how much deeper the walk can go, which there is always room for. -/
theorem render_outlined (h : ts.Sane) (hr : ts.Regular) : ∀ (n : Nat) (opened : List TypeId), ∀ c < ts.size,
    ts.Outlined names n opened (ts.render names n opened) c
  | 0, _, _, _ => fun _ hroom => absurd hroom.pos (Nat.lt_irrefl 0)
  | n + 1, opened, c, hc => by
    intro written hroom
    have ht := lookup_of_lt hc
    cases hk : written.idxOf? c with
    | some k => exact ⟨_, written, render_again hk, .again hk .nil, hroom⟩
    | none =>
      have hw : c ∉ written := List.idxOf?_eq_none_iff.mp hk
      by_cases ho : c ∈ opened
      · exact ⟨_, written, render_cycle hw ho, .cycle hw ho .nil, hroom⟩
      have next {s : TypeStep} {c' : TypeId} (hs : (ts.get c).shape.next? s = some c') : c' < ts.size :=
        h.next_lt ht hs
      have below := render_outlined h hr n (c :: opened)
      cases hs : (ts.get c).shape with
      | plain | deferred | parent =>
        have hplain : (ts.get c).shape.isComposed = false := by rw [hs]; rfl
        exact ⟨_, written, render_plain hw ho (hr c) hplain, .plain hw ho ht hplain .nil, hroom⟩
      | pointer base =>
        exact pointer_drawn hr hc hw ho hroom hs (below base (next (s := .pointee) (by rw [hs]; rfl)))
      | function result params =>
        refine function_drawn hr hc hw ho hroom hs (next (s := .result) (by rw [hs]; rfl)) (fun p hp => ?_) below
        obtain ⟨s, hn⟩ := TypeShape.next?_param result hp
        exact next (hs ▸ hn)
      | struct fields =>
        refine struct_drawn hr hc hw ho hroom hs (fun f hf => ?_) (render_outlined h hr n opened)
        obtain ⟨s, hn⟩ := TypeShape.next?_field hf
        exact next (hs ▸ hn)

end

/-! ## All tables -/

section
variable {ts : TypeTable} {id : TypeId} {o : Outline} {written : List TypeId}

/-- However deep a type goes, it has an outline. -/
theorem display_drawn (h : Later initial ts) (hid : id < ts.size) (names : Names) :
    ∃ o written, ts.Draws [] [] [{ type := id }] [o] written ∧ ts.display names id = o.text ts names := by
  have hroom : ts.Room (ts.size + 2) [] [] := ⟨.nil, List.forall_mem_nil _, by omega⟩
  have houtlined : ts.Outlined names _ [] _ id :=
    render_outlined (h.keeps sane_initial).sane h.regular (ts.size + 2) [] id hid
  obtain ⟨o, written, htext, hdraws, -⟩ := houtlined [] hroom
  exact ⟨o, written, hdraws, congrArg Prod.fst htext⟩

theorem display_eq (h : Later initial ts) (hid : id < ts.size)
    (hd : ts.Draws [] [] [{ type := id }] [o] written) (names : Names) :
    ts.display names id = o.text ts names := by
  obtain ⟨o', _, hdraws, htext⟩ := display_drawn h hid names
  cases (hdraws.unique hd).1
  exact htext

/-- Of every type in a table that has come about by requests there is one outline, however deep it goes. The
type is shown as the text of it, and in it structs are numbered in the order in which they first appear: each
is written out there and nowhere else, and wherever it appears again, its number stands for it. -/
theorem display_numbers (h : Later initial ts) (hid : id < ts.size) (names : Names) :
    ∃ o : Outline, (∀ os written, ts.Draws [] [] [{ type := id }] os written ↔
      os = [o] ∧ written = writtenOut o.places) ∧
      ts.display names id = o.text ts names ∧ ts.Numbered o.places := by
  obtain ⟨o, written, hdraws, htext⟩ := display_drawn h hid names
  have hcontinues := hdraws.continues (List.forall_mem_nil _)
  rw [show Outline.allPlaces [o] = o.places from List.append_nil _] at hcontinues
  cases hcontinues.order
  refine ⟨o, fun os written => ⟨fun h' => h'.unique hdraws, ?_⟩, htext, hcontinues.numbered⟩
  rintro ⟨rfl, rfl⟩
  exact hdraws

end

/-! ## Structs in a struct -/

def item : TypeInfo := { kind := .struct, shape := .struct [{ name := none, type := int64 }] }

def itemPointer : TypeInfo := { kind := .pointer, shape := .pointer 9 }

def box : TypeInfo where
  kind := .struct
  shape := .struct [{ name := none, type := 10 }, { name := none, type := 10, offset := 8 },
    { name := none, type := 9, offset := 16, inlined := some 2 }]
  size := 32

def itemTypes : List TypeInfo :=
  primitiveKinds.map (plainInfo · {}) ++ [(ofTypes (primitiveKinds.map (plainInfo · {}))).joined item]

def itemPointerTypes : List TypeInfo := itemTypes ++ [(ofTypes itemTypes).joined itemPointer]

def boxTypes : List TypeInfo := itemPointerTypes ++ [(ofTypes itemPointerTypes).joined box]

theorem boxTypes_comprised : ∃ ts : TypeTable, ts.Comprises boxTypes := by
  obtain ⟨ts₁, -, h₁⟩ := comprises_initial.ask (.struct [{ name := none, type := int64 }] none) (t := item)
    (by decide +kernel) ⟨by decide, nofun⟩ (by decide +kernel)
  obtain ⟨ts₂, -, h₂⟩ := (show ts₁.Comprises itemTypes from h₁).ask (.pointer 9) (t := itemPointer) rfl
    (show 9 < itemTypes.length by decide) (by decide +kernel)
  obtain ⟨ts₃, -, h₃⟩ := (show ts₂.Comprises itemPointerTypes from h₂).ask
    (.struct [{ name := none, type := 10 }, { name := none, type := 10 },
      { name := none, type := 9, inlined := some 2 }] none) (t := box)
    (by decide +kernel) ⟨by decide, nofun⟩ (by decide +kernel)
  exact ⟨ts₃, h₃⟩

def boxOutline : Outline :=
  .struct 11 1 [.composed 10 [.struct 9 2 [.plain int64]], .composed 10 [.again 9 2], .elided 9]

section
variable {ts : TypeTable} (h : ts.Comprises boxTypes)
include h

theorem box_draws : ts.Draws [] [] [{ type := 11 }] [boxOutline] [11, 9] := by
  obtain ⟨types, interned, closed, closedConst⟩ := ts
  obtain rfl : types = boxTypes.toArray := h.types
  exact .struct (by decide) (by decide) rfl rfl
    (.composed (by decide) (by decide) rfl rfl nofun
      (.struct (by decide) (by decide) rfl rfl (.plain (by decide) (by decide) rfl rfl .nil) .nil)
      (.composed (by decide) (by decide) rfl rfl nofun (.again rfl .nil)
        (.elided .nil)))
    .nil

theorem box_text (names : Names) : boxOutline.text ts names =
    "struct S1 \x7b struct S2 \x7b s64 @ 0; \x7d# @ 0; S2# @ 8; inline(2) ... @ 16; \x7d" := by
  have hnumber : ts.get int64 = plainInfo .int64 {} := h.get int64
  have hitem : ts.get 9 = (ofTypes (primitiveKinds.map (plainInfo · {}))).joined item := h.get 9
  have hpointer : ts.get 10 = (ofTypes itemTypes).joined itemPointer := h.get 10
  have hbox : ts.get 11 = (ofTypes itemPointerTypes).joined box := h.get 11
  simp only [boxOutline, Outline.text, Outline.texts, hnumber, hitem, hpointer, hbox]
  rfl

end

/-! ## A pointer to itself -/

section
variable {ts : TypeTable} {r c : TypeId} {w : TypeInfo} (hw : ts.types[r]? = some w) (hshape : w.shape = .pointer r)
include hw hshape

theorem knot_draws {opened : List TypeId} (ho : r ∉ opened) :
    ts.Draws opened [] [{ type := r }] [.composed r [.cycle r]] [] :=
  .composed List.not_mem_nil ho hw (by rw [hshape]; rfl) (by rw [hshape]; nofun)
    (by rw [hshape]; exact .cycle List.not_mem_nil List.mem_cons_self .nil) .nil

/-- The constant copy points to the pointer, which it is not itself. -/
theorem knotCopy_draws (hc : ts.types[c]? = some w.constCopy) (hne : r ≠ c) :
    ts.Draws [] [] [{ type := c }] [.composed c [.composed r [.cycle r]]] [] := by
  have hcopy : w.constCopy.shape = .pointer r := hshape
  refine .composed List.not_mem_nil List.not_mem_nil hc (by rw [hcopy]; rfl) (by rw [hcopy]; nofun) ?_ .nil
  rw [hcopy]
  exact knot_draws hw hshape (List.mem_singleton.not.mpr hne)

variable (hconst : w.isConst = false) (names : Names)
include hconst

theorem knot_text : (Outline.composed r [.cycle r]).text ts names = "(cycle)#" := by
  simp only [Outline.text, Outline.texts, composedText, constText, get_eq hw, hshape, hconst]
  rfl

theorem knotCopy_text (hc : ts.types[c]? = some w.constCopy) :
    (Outline.composed c [.composed r [.cycle r]]).text ts names = "const (cycle)##" := by
  have hcopy : w.constCopy.shape = .pointer r := hshape
  rw [Outline.text, Outline.texts, Outline.texts, knot_text hw hshape hconst, get_eq hc]
  simp only [composedText, hcopy]
  rfl

end

/-! ## Both kinds of cycles -/

/-- Structs behind pointers and inside, a pointer to itself, and a constant version of it. -/
theorem display_numbers_box :
    (∃ ts : TypeTable, Later initial ts ∧ 11 < ts.size ∧ ∀ names,
      ts.display names 11 = "struct S1 \x7b struct S2 \x7b s64 @ 0; \x7d# @ 0; S2# @ 8; inline(2) ... @ 16; \x7d" ∧
        ts.Numbered boxOutline.places) ∧
    ∃ (ts : TypeTable) (r : TypeId), Later initial ts ∧ r < ts.size ∧ (ts.get r).flags.closed = true ∧ ∀ names,
      ts.display names r = "(cycle)#" ∧ (ts.constant r).2.display names (ts.constant r).1 = "const (cycle)##" := by
  constructor
  · obtain ⟨ts, h⟩ := boxTypes_comprised
    have hid : 11 < ts.size := h.size ▸ (by decide)
    refine ⟨ts, h.later, hid, fun names => ?_⟩
    obtain ⟨o, hdraws, htext, hnumbered⟩ := display_numbers h.later hid names
    cases ((hdraws _ _).mp (box_draws h)).1
    exact ⟨htext.trans (box_text h names), hnumbered⟩
  · obtain ⟨ts, r, h, w, hw, hclosed, hconst, hshape⟩ := knotted_pointer
    have hid := lt_of_lookup hw
    have hclosed' : (ts.get r).flags.closed = true := by rwa [get_eq hw]
    refine ⟨ts, r, h, hid, hclosed', fun names => ⟨?_, ?_⟩⟩
    · obtain ⟨o, hdraws, htext, -⟩ := display_numbers h hid names
      cases ((hdraws _ _).mp (knot_draws hw hshape List.not_mem_nil)).1
      exact htext.trans (knot_text hw hshape hconst names)
    · have hm : (TypeOp.constant r).Mentions (· < ts.size) := hid
      have hcopy := h.constCopy hid hclosed' .refl
      have hw' : (ts.constant r).2.types[r]? = some w :=
        (TypeOp.run_keeps (h.keeps sane_initial).sane hm).grows _ _ hw
      have hc := hcopy.copied
      rw [get_eq hw'] at hc
      obtain ⟨o, hdraws, htext, -⟩ := display_numbers (h.step hm) (lt_of_lookup hc) names
      cases ((hdraws _ _).mp (knotCopy_draws hw' hshape hc hcopy.later.ne)).1
      exact htext.trans (knotCopy_text hw' hshape hconst names hc)

/-- Two structs inside another one are left out, where the same struct has been written out before as the
second one. -/
theorem display_elides : ∃ ts : TypeTable, Later initial ts ∧ 11 < ts.size ∧ ts.IsStruct 9 ∧
    (∀ names, ts.display names 11 =
      "struct S1 \x7b struct S2 \x7b s64 @ 0; \x7d# @ 0; S2# @ 8; inline(2) ... @ 16; \x7d") ∧
    ts.Draws [] [] [{ type := 11 }] [boxOutline] [11, 9] ∧
    ∃ before spelling, boxOutline.places = before ++ [(9, spelling)] ∧ (9, 2) ∈ wholes before ∧
        ¬NumberedAfter before 9 spelling := by
  obtain ⟨ts, h⟩ := boxTypes_comprised
  have hid : 11 < ts.size := h.size ▸ (by decide)
  refine ⟨ts, h.later, hid, ?_, fun names =>
    (display_eq h.later hid (box_draws h) names).trans (box_text h names), box_draws h,
    boxOutline.places.dropLast, .elided, rfl, ?_, ?_⟩
  · rw [IsStruct, h.get]
    rfl
  · exact List.mem_of_getElem? (i := 1) rfl
  · rintro (⟨-, he⟩ | ⟨_, he, -⟩) <;> cases he

end TypeTable

end LevelScript
