import LevelScript.Proofs.Resolving
import LevelScript.Proofs.TypeSizes
import LevelScript.Types.Display

/-!
# Outlines of types

What is written for a type has an outline: which types come, in which order and inside which others, and which
of them are only mentioned. Here it is drawn without a bound on how deep that goes. There is at most one
outline of a type, and in every outline the structs are numbered in the order in which they first appear.
-/

namespace LevelScript

open TypeTable

/-! ## Outlines and their texts -/

/-- What is written for a type: nothing of it, its number, that it is a cycle, or all of it with what it is
made of. -/
inductive Outline where
  | elided (id : TypeId)
  | again (id : TypeId) (number : Nat)
  | cycle (id : TypeId)
  | plain (id : TypeId)
  | composed (id : TypeId) (parts : List Outline)
  | struct (id : TypeId) (number : Nat) (parts : List Outline)

namespace TypeTable

def constText (t : TypeInfo) : String := if t.isConst then "const " else ""

def leafText (names : Names) (t : TypeInfo) : String :=
  match t.shape with
  | .deferred name => "(defer " ++ names.text name ++ ")"
  | .parent depth => "(parent " ++ Nat.repr depth ++ ")"
  | _ => (plainText t).getD "?"

def composedText (names : Names) (t : TypeInfo) (texts : List String) : String :=
  match t.shape, texts with
  | .pointer _, [base] => base ++ "#"
  | .function _ params, result :: texts =>
    result ++ (if t.flags.assignable then "<-$(" else "<-(") ++
      ", ".intercalate (List.zipWith (fun p text => text ++ nameText names p.name) params texts) ++ ")"
  | _, _ => ""

def fieldText (names : Names) (f : Field) (text : String) : String :=
  let inlined := match f.inlined with
    | some count => "inline(" ++ Nat.repr count.toNat ++ ") "
    | none => ""
  inlined ++ text ++ nameText names f.name ++ (" @ " ++ Nat.repr f.offset.toNat ++ "; ")

def fieldsText (names : Names) (fields : List Field) (texts : List String) : String :=
  (List.zipWith (fieldText names) fields texts).foldr (· ++ ·) ""

end TypeTable

namespace Outline

mutual

def text (ts : TypeTable) (names : Names) : Outline → String
  | elided _ => "..."
  | again _ number => "S" ++ Nat.repr number
  | cycle _ => "(cycle)"
  | plain id => constText (ts.get id) ++ leafText names (ts.get id)
  | composed id parts => constText (ts.get id) ++ composedText names (ts.get id) (texts ts names parts)
  | struct id number parts =>
    constText (ts.get id) ++ "struct S" ++ Nat.repr number ++ " \x7b " ++
      fieldsText names (ts.get id).fields (texts ts names parts) ++ "\x7d"

def texts (ts : TypeTable) (names : Names) : List Outline → List String
  | [] => []
  | o :: os => o.text ts names :: texts ts names os

end

end Outline

/-! ## Places -/

inductive Spelling where
  | elided
  | again (number : Nat)
  | cycle
  | plain
  | composed
  | whole (number : Nat)

namespace Outline

mutual

def places : Outline → List (TypeId × Spelling)
  | elided id => [(id, .elided)]
  | again id number => [(id, .again number)]
  | cycle id => [(id, .cycle)]
  | plain id => [(id, .plain)]
  | composed id parts => (id, .composed) :: allPlaces parts
  | struct id number parts => (id, .whole number) :: allPlaces parts

def allPlaces : List Outline → List (TypeId × Spelling)
  | [] => []
  | o :: os => o.places ++ allPlaces os

end

end Outline

def wholes (places : List (TypeId × Spelling)) : List (TypeId × Nat) :=
  places.filterMap fun
    | (id, .whole number) => some (id, number)
    | _ => none

def writtenOut (places : List (TypeId × Spelling)) : List TypeId := (wholes places).map Prod.fst

theorem wholes_cons (p : TypeId × Spelling) (places : List (TypeId × Spelling)) :
    wholes (p :: places) = wholes [p] ++ wholes places :=
  List.filterMap_append (l := [p])

theorem writtenOut_append (a b : List (TypeId × Spelling)) :
    writtenOut (a ++ b) = writtenOut a ++ writtenOut b := by
  rw [writtenOut, wholes, List.filterMap_append, List.map_append]
  rfl

def appearing (places : List (TypeId × Spelling)) : List TypeId :=
  places.filterMap fun
    | (_, .elided) => none
    | (id, _) => some id

/-! ## Drawing -/

/-- A type inside another one, and whether it is to be shown. -/
structure Part where
  type : TypeId
  shown : Bool := true

/-- What a shape is made of. What a field holds none or many of is not shown. -/
def TypeShape.shownParts : TypeShape → List Part
  | pointer base => [{ type := base }]
  | function result params => { type := result } :: params.map fun p => { type := p.type }
  | struct fields => fields.map fun f => { type := f.type, shown := f.inlined.getD 1 == (1 : UInt64) }
  | plain | deferred _ | parent _ => []

theorem TypeShape.isComposed_of_struct {shape : TypeShape} (h : shape.kind? = some .struct) :
    shape.isComposed = true := by
  cases shape with
  | struct => rfl
  | _ => cases h

/-- Types are drawn side by side, as deep as that goes. `opened` are the pointers and functions around them,
and `written` the structs that are written out before them, in order; the last argument are those that are
written out after them. -/
inductive TypeTable.Draws (ts : TypeTable) : List TypeId → List TypeId → List Part → List Outline →
    List TypeId → Prop where
  | nil {opened written : List TypeId} : Draws ts opened written [] [] written
  | elided {opened written written' : List TypeId} {id : TypeId} {parts : List Part} {os : List Outline} :
      Draws ts opened written parts os written' →
      Draws ts opened written (⟨id, false⟩ :: parts) (.elided id :: os) written'
  | again {opened written written' : List TypeId} {id : TypeId} {k : Nat} {parts : List Part} {os : List Outline} :
      written.idxOf? id = some k → Draws ts opened written parts os written' →
      Draws ts opened written (⟨id, true⟩ :: parts) (.again id (k + 1) :: os) written'
  | cycle {opened written written' : List TypeId} {id : TypeId} {parts : List Part} {os : List Outline} :
      id ∉ written → id ∈ opened → Draws ts opened written parts os written' →
      Draws ts opened written (⟨id, true⟩ :: parts) (.cycle id :: os) written'
  | plain {opened written written' : List TypeId} {id : TypeId} {t : TypeInfo} {parts : List Part}
      {os : List Outline} :
      id ∉ written → id ∉ opened → ts.types[id]? = some t → t.shape.isComposed = false →
      Draws ts opened written parts os written' →
      Draws ts opened written (⟨id, true⟩ :: parts) (.plain id :: os) written'
  | composed {opened written written₁ written' : List TypeId} {id : TypeId} {t : TypeInfo} {parts : List Part}
      {below os : List Outline} :
      id ∉ written → id ∉ opened → ts.types[id]? = some t → t.shape.isComposed = true →
          t.shape.kind? ≠ some .struct →
      Draws ts (id :: opened) written t.shape.shownParts below written₁ →
          Draws ts opened written₁ parts os written' →
      Draws ts opened written (⟨id, true⟩ :: parts) (.composed id below :: os) written'
  | struct {opened written written₁ written' : List TypeId} {id : TypeId} {t : TypeInfo} {parts : List Part}
      {below os : List Outline} :
      id ∉ written → id ∉ opened → ts.types[id]? = some t → t.shape.kind? = some .struct →
      Draws ts opened (written ++ [id]) t.shape.shownParts below written₁ →
          Draws ts opened written₁ parts os written' →
      Draws ts opened written (⟨id, true⟩ :: parts) (.struct id (written.length + 1) below :: os) written'

namespace TypeTable

section
variable {ts : TypeTable} {opened written written' written₁ written₂ : List TypeId} {parts : List Part}
  {os os' : List Outline}

/-- Types are not drawn in two ways. -/
theorem Draws.unique (h : ts.Draws opened written parts os written₁)
    (h' : ts.Draws opened written parts os' written₂) :
    os = os' ∧ written₁ = written₂ := by
  induction h generalizing os' written₂ with
  | nil =>
    cases h'
    exact ⟨rfl, rfl⟩
  | elided _ ih =>
    cases h' with
    | elided h' => grind
  | again hk _ ih => cases h' <;> grind [List.idxOf?_eq_none_iff]
  | cycle => cases h' <;> grind [List.idxOf?_eq_none_iff]
  | plain => cases h' <;> grind [List.idxOf?_eq_none_iff, TypeShape.isComposed_of_struct]
  | composed => cases h' <;> grind [List.idxOf?_eq_none_iff]
  | struct => cases h' <;> grind [List.idxOf?_eq_none_iff, TypeShape.isComposed_of_struct]

end

/-! ## Numbers -/

def IsStruct (ts : TypeTable) (id : TypeId) : Prop := (ts.get id).shape.kind? = some .struct

theorem not_isStruct {ts : TypeTable} {id : TypeId} {t : TypeInfo} (ht : ts.types[id]? = some t)
    (hs : t.shape.kind? ≠ some .struct) :
    ¬ts.IsStruct id := by
  rwa [IsStruct, get_eq ht]

/-- What stands for a struct behind these places: all of it with the next number where it first appears, and
that number where it appears again. -/
def NumberedAfter (before : List (TypeId × Spelling)) (id : TypeId) (spelling : Spelling) : Prop :=
  id ∉ appearing before ∧ spelling = .whole ((wholes before).length + 1) ∨
    ∃ number, spelling = .again number ∧ (id, number) ∈ wholes before

/-- Structs have the numbers 1, 2, … in the order in which they first appear, and one that is not left out is
shown so. -/
structure Numbered (ts : TypeTable) (places : List (TypeId × Spelling)) : Prop where
  once : (writtenOut places).Nodup
  numbers : (wholes places).map Prod.snd = List.range' 1 (wholes places).length
  place {before after : List (TypeId × Spelling)} {id : TypeId} {spelling : Spelling} :
    places = before ++ (id, spelling) :: after → ts.IsStruct id → spelling = .elided ∨
        NumberedAfter before id spelling

/-- How a type can be written behind the structs `written`: a struct is one of them and mentioned, or it is
the next one. -/
def Suits (ts : TypeTable) (written : List TypeId) (id : TypeId) : Spelling → Prop
  | .elided => True
  | .again number => ∃ k, number = k + 1 ∧ written[k]? = some id
  | .whole number => id ∉ written ∧ number = written.length + 1
  | .cycle | .plain | .composed => ¬ts.IsStruct id

/-- Each type is written as it can be behind the structs `written` and those before it, and these are
`written'` in the end. -/
inductive Continues (ts : TypeTable) : List TypeId → List (TypeId × Spelling) → List TypeId → Prop where
  | nil {written : List TypeId} : Continues ts written [] written
  | cons {written written' : List TypeId} {id : TypeId} {spelling : Spelling} {places : List (TypeId × Spelling)} :
      ts.Suits written id spelling → Continues ts (written ++ writtenOut [(id, spelling)]) places written' →
      Continues ts written ((id, spelling) :: places) written'

section
variable {ts : TypeTable} {written written₁ written' : List TypeId}
  {places a b before after : List (TypeId × Spelling)} {id : TypeId}
  {spelling : Spelling}

theorem Continues.append (h : ts.Continues written a written₁) (h' : ts.Continues written₁ b written') :
    ts.Continues written (a ++ b) written' := by
  induction h with
  | nil => exact h'
  | cons hf _ ih => exact .cons hf (ih h')

theorem Continues.order (h : ts.Continues written places written') : written' = written ++ writtenOut places := by
  induction h with
  | nil => exact (List.append_nil _).symm
  | cons _ _ ih => rw [ih, List.append_assoc, ← writtenOut_append, List.singleton_append]

theorem Continues.split (h : ts.Continues written (a ++ b) written') : ∃ written₁, ts.Continues written a written₁ ∧
    ts.Continues written₁ b written' := by
  induction a generalizing written with
  | nil => exact ⟨written, .nil, h⟩
  | cons p a ih =>
    cases h with
    | cons hf h =>
      obtain ⟨written₁, ha, hb⟩ := ih h
      exact ⟨written₁, .cons hf ha, hb⟩

/-- The structs before a place are those that are written out before it. -/
theorem Continues.place (h : ts.Continues written (before ++ (id, spelling) :: after) written') :
    ts.Continues written before (written ++ writtenOut before) ∧
      ts.Suits (written ++ writtenOut before) id spelling := by
  obtain ⟨written₁, hbefore, hrest⟩ := h.split
  cases hbefore.order
  cases hrest with
  | cons hf => exact ⟨hbefore, hf⟩

theorem Continues.nodup (h : ts.Continues written places written') (hd : written.Nodup) : written'.Nodup := by
  induction h with
  | nil => exact hd
  | @cons written _ id spelling _ hf _ ih =>
    refine ih ?_
    cases spelling with
    | whole number =>
      refine List.nodup_append.mpr ⟨hd, List.pairwise_singleton _ id, fun a ha b hb => ?_⟩
      rintro rfl
      cases List.mem_singleton.mp hb
      exact hf.1 ha
    | _ => exact (List.append_nil written).symm ▸ hd

theorem Continues.numbers (h : ts.Continues written places written') :
    (wholes places).map Prod.snd = List.range' (written.length + 1) (wholes places).length := by
  induction h with
  | nil => rfl
  | @cons written _ id spelling places hf _ ih =>
    rw [wholes_cons]
    cases spelling with
    | whole number =>
      obtain ⟨-, rfl⟩ := hf
      rw [writtenOut, show (wholes [(id, Spelling.whole (written.length + 1))]).map Prod.fst = [id] from rfl,
        List.length_append] at ih
      exact congrArg (_ :: ·) ih
    | _ => rwa [writtenOut, show wholes [(id, _)] = [] from rfl, List.map_nil, List.append_nil] at ih

end

section
variable {ts : TypeTable} {written : List TypeId} {places : List (TypeId × Spelling)} {id : TypeId}

/-- The structs that are written out have their places in the order for numbers. -/
theorem Continues.mem_wholes (h : ts.Continues [] places written) {k : Nat}
    (hk : (writtenOut places)[k]? = some id) :
    (id, k + 1) ∈ wholes places := by
  rw [writtenOut, List.getElem?_map, Option.map_eq_some_iff] at hk
  obtain ⟨⟨c, number⟩, hc, rfl⟩ := hk
  have hlt : k < (wholes places).length := (List.getElem?_eq_some_iff.mp hc).1
  have hn : ((wholes places).map Prod.snd)[k]? = some number := by rw [List.getElem?_map, hc]; rfl
  rw [h.numbers, List.length_nil, List.getElem?_range' hlt] at hn
  have hnumber : number = k + 1 := by
    have := Option.some.inj hn
    omega
  rw [← hnumber]
  exact List.mem_of_getElem? hc

/-- A struct that appears has been written out. -/
theorem Continues.mem_of_appearing (h : ts.Continues [] places written) (hs : ts.IsStruct id)
    (hm : id ∈ appearing places) :
    id ∈ writtenOut places := by
  obtain ⟨⟨c, spelling⟩, hp, hc⟩ := List.mem_filterMap.mp hm
  obtain ⟨before, after, rfl⟩ := List.append_of_mem hp
  have hsuits := h.place.2
  rw [List.nil_append] at hsuits
  rw [writtenOut_append, ← List.singleton_append, writtenOut_append]
  cases spelling with
  | elided => cases hc
  | again number =>
    cases hc
    obtain ⟨k, -, hk⟩ := hsuits
    exact List.mem_append_left _ (List.mem_of_getElem? hk)
  | whole number =>
    cases hc
    exact List.mem_append_right _ (List.mem_append_left _ (List.mem_singleton_self id))
  | cycle | plain | composed =>
    cases hc
    exact absurd hs hsuits

theorem Continues.numbered (h : ts.Continues [] places written) : ts.Numbered places where
  once := by
    have hd := h.nodup .nil
    rwa [h.order, List.nil_append] at hd
  numbers := h.numbers
  place {before after id spelling} hp hs := by
    subst hp
    obtain ⟨hbefore, hsuits⟩ := h.place
    rw [List.nil_append] at hbefore hsuits
    cases spelling with
    | elided => exact .inl rfl
    | again number =>
      obtain ⟨k, rfl, hk⟩ := hsuits
      exact .inr (.inr ⟨_, rfl, hbefore.mem_wholes hk⟩)
    | whole number =>
      obtain ⟨hout, rfl⟩ := hsuits
      exact .inr (.inl ⟨fun hm => hout (hbefore.mem_of_appearing hs hm), by rw [writtenOut, List.length_map]⟩)
    | cycle | plain | composed => exact absurd hs hsuits

end

section
variable {ts : TypeTable} {opened written written' : List TypeId} {parts : List Part} {os : List Outline}

/-- What is drawn behind the structs `written` is numbered on from them. -/
theorem Draws.continues (h : ts.Draws opened written parts os written') (ho : ∀ c ∈ opened, ¬ts.IsStruct c) :
    ts.Continues written (Outline.allPlaces os) written' := by
  -- what writes out no struct leaves the order as it is
  have next {written written' : List TypeId} {id : TypeId} {spelling : Spelling} {places : List (TypeId × Spelling)}
      (hw : writtenOut [(id, spelling)] = []) (hf : ts.Suits written id spelling)
      (h : ts.Continues written places written') :
      ts.Continues written ((id, spelling) :: places) written' := .cons hf (by rwa [hw, List.append_nil])
  induction h with
  | nil => exact .nil
  | elided _ ih => exact next rfl trivial (ih ho)
  | again hk _ ih => exact next rfl ⟨_, rfl, getElem?_of_idxOf? hk⟩ (ih ho)
  | cycle _ hin _ ih => exact next rfl (ho _ hin) (ih ho)
  | plain _ _ ht hc _ ih =>
    refine next rfl (not_isStruct ht fun hs => ?_) (ih ho)
    rw [TypeShape.isComposed_of_struct hs] at hc
    cases hc
  | composed _ _ ht _ hs _ _ ihb ih =>
    have hid := not_isStruct ht hs
    exact next rfl hid ((ihb (List.forall_mem_cons.mpr ⟨hid, ho⟩)).append (ih ho))
  | struct hw _ _ _ _ _ ihb ih => exact .cons ⟨hw, rfl⟩ ((ihb ho).append (ih ho))

end

end TypeTable

end LevelScript
