import Limn.Outline
import Limn.Proofs.Position
import Mathlib.Data.List.DropRight
import Mathlib.Tactic

/-! # Headings by recursion on the tree

An outline is picked from a walk. It is the same as what a recursion on the tree lists: the entry
that a node has of its own, then the headings below each of its children in turn (`headings`). The
entry of a node is spelled out from what its title is made of (`said`, `stripped`). It is owed to
the first named child, the marker, and no two nodes have a child in common; so the entries come from
as many markers as there are entries, and these stand at different positions (`build_headings`).
-/

namespace Limn.Outline

open Node
open Limn.Text (Symbol)

/-! ## Titles -/

/-- The code points of blanks. -/
def BlankPoint (n : Nat) : Prop :=
  (0x09 ≤ n ∧ n ≤ 0x0d) ∨ (0x1c ≤ n ∧ n ≤ 0x20) ∨ n = 0x85 ∨ n = 0xa0 ∨ n = 0x1680 ∨
    (0x2000 ≤ n ∧ n ≤ 0x200a) ∨ n = 0x2028 ∨ n = 0x2029 ∨ n = 0x202f ∨ n = 0x205f ∨ n = 0x3000

instance : DecidablePred BlankPoint := fun n => by
  unfold BlankPoint
  infer_instance

theorem blankPoint_iff (c : Char) : BlankPoint c.toNat ↔ Text.isBlank c = true := by
  unfold BlankPoint Text.isBlank Text.isNumeralBlank
  simp only [Bool.or_eq_true, Bool.and_eq_true, decide_eq_true_eq, beq_iff_eq]
  omega

/-- A half of a pair is no blank. -/
theorem not_blankPoint_half (h : Text.Half) : ¬BlankPoint h.unit := by
  have hrange := h.isHalf
  unfold Text.isHighHalf Text.isLowHalf at hrange
  simp only [Bool.or_eq_true, Bool.and_eq_true, decide_eq_true_eq] at hrange
  unfold BlankPoint
  omega

/-- What is left of a row of symbols when the blanks on either side are gone. -/
def stripped (row : List Symbol) : List Symbol :=
  (row.dropWhile (BlankPoint ·.number)).rdropWhile (BlankPoint ·.number)

theorem ofSymbols_stripped (w : Wording) : .ofSymbols (stripped w.symbols) = w.trim := by
  cases w with
  | text s =>
      have hblank : (fun x : Symbol => decide (BlankPoint x.number)) ∘ Symbol.char =
          Text.isBlank := by
        funext c
        rw [Function.comp_apply, Bool.eq_iff_iff, decide_eq_true_iff]
        exact blankPoint_iff c
      show Wording.ofSymbols (stripped (s.toList.map .char)) = _
      rw [stripped, List.rdropWhile, List.dropWhile_map, ← List.map_reverse, List.dropWhile_map,
        ← List.map_reverse, hblank, Wording.ofSymbols_map_char]
      rfl
  | halved h =>
      have hblank : (fun x : Symbol => decide (BlankPoint x.number)) =
          fun x => x.char?.any Text.isBlank := by
        funext x
        rw [Bool.eq_iff_iff, decide_eq_true_iff]
        cases x with
        | char c => exact blankPoint_iff c
        | half k => exact iff_of_false (not_blankPoint_half k) Bool.false_ne_true
      rw [stripped, hblank]
      rfl

/-- What a node says: the wording that it holds, or the octets that it holds or covers, decoded. -/
def said (n : Node) : Option (List Symbol) :=
  match n.content with
  | .absent => none
  | .literal wording => some wording.symbols
  | .raw bytes => some (bytes.toTextLossy.toList.map .char)
  | .spanOf source =>
    some ((source.window n.span.start n.span.stop).toTextLossy.toList.map .char)

theorem said_eq (n : Node) : said n = n.text?.map Wording.symbols := by
  unfold said Node.text?
  cases n.content <;> rfl

/-- The child that holds the title of a marker. -/
def titleChild? (marker : Node) : Option Node :=
  marker.children.find? fun c => c.field matches .text "heading_content"

theorem titleChild?_eq (marker : Node) : titleChild? marker = marker.fieldChild? titleField := by
  unfold titleChild? fieldChild? inField titleField
  congr 1
  funext c
  cases c.field with
  | text s =>
      by_cases hs : s = "heading_content"
      · rw [hs]
        rfl
      · split
        · simp_all
        · exact (beq_eq_false_iff_ne.mpr hs).symm
  | _ => rfl

/-! ## The recursion -/

/-- The entry that a node has of its own: it takes a first named child of one of the types, with a
content that says something. -/
def own (types : List Wording) (n : Node) : List OutlineEntry :=
  match n.children.find? (·.named) with
  | none => []
  | some marker =>
    if types.contains marker.type then
      match (titleChild? marker).bind said with
      | none => []
      | some row => [⟨.ofSymbols (stripped row), n.span, 1⟩]
    else []

mutual

/-- The headings of a tree. -/
def headings (types : List Wording) : Node → List OutlineEntry
  | ⟨type, span, named, field, content, children⟩ =>
    own types ⟨type, span, named, field, content, children⟩ ++ headingsBelow types children

/-- The headings of a row of trees. -/
def headingsBelow (types : List Wording) : List Node → List OutlineEntry
  | [] => []
  | n :: rest => headings types n ++ headingsBelow types rest

end

theorem headings_eq (types : List Wording) (n : Node) :
    headings types n = own types n ++ headingsBelow types n.children := by
  cases n
  rw [headings]

theorem own_eq (types : List Wording) (n : Node) : own types n = (heading? types n).toList := by
  unfold own heading? isSection title? firstNamed? namedChildren
  rw [List.head?_filter]
  cases n.children.find? (·.named) with
  | none => rfl
  | some marker =>
      dsimp only [Option.bind_eq_bind, Option.bind_some]
      split
      · rw [titleChild?_eq]
        cases marker.fieldChild? titleField with
        | none => rfl
        | some content =>
            rw [Option.bind_some, Option.bind_some, said_eq]
            cases content.text? with
            | none => rfl
            | some text =>
                dsimp only [Option.map_some, Option.bind_some]
                rw [ofSymbols_stripped]
                rfl
      · rfl

theorem filterMap_forestOrder (types : List Wording) (parent : Node) (ns : List Node) :
    (forestOrder parent ns).filterMap (fun v => heading? types v.node) = headingsBelow types ns := by
  induction ns using forest_induction generalizing parent with
  | nil => simp [forestOrder, headingsBelow]
  | cons n ns ihchildren ih =>
      rw [forestOrder, preorder_eq, List.filterMap_append, ih, headingsBelow, headings_eq, own_eq,
        ← ihchildren n, List.filterMap_cons]
      cases heading? types n <;> rfl

theorem filterMap_walk (types : List Wording) (root : Node) :
    root.walk.filterMap (fun v => heading? types v.node) = headings types root := by
  rw [walk_eq_preorder, preorder_eq, headings_eq, own_eq, List.filterMap_cons,
    filterMap_forestOrder]
  cases heading? types root <;> rfl

/-! ## Markers -/

/-- The entry is owed to the marker at the position: the node above has this entry of its own, and
the marker is the first of its children that is named. -/
inductive MarkedAt (types : List Wording) (root : Node) : Position → OutlineEntry → Prop where
  | mk {q : Position} {i : Nat} {n marker : Node} {e : OutlineEntry} :
      root.at? q = some n → own types n = [e] → n.children[i]? = some marker →
      marker.named = true → (∀ j < i, ∀ c, n.children[j]? = some c → c.named = false) →
      types.contains marker.type = true → MarkedAt types root (q ++ [i]) e

/-- The position of the first named child of what a walk comes by. -/
def markerOf (s : Position × Visit) : Position :=
  s.1 ++ [s.2.node.children.findIdx (·.named)]

theorem markedAt_markerOf {types : List Wording} {root : Node} {s : Position × Visit}
    {e : OutlineEntry} (hs : root.at? s.1 = some s.2.node)
    (he : heading? types s.2.node = some e) : MarkedAt types root (markerOf s) e := by
  have hown : own types s.2.node = [e] := by
    rw [own_eq, he]
    rfl
  have hsection : isSection types s.2.node = true := by
    unfold heading? at he
    split at he
    · assumption
    · contradiction
  unfold isSection firstNamed? namedChildren at hsection
  rw [List.head?_filter] at hsection
  cases hmarker : s.2.node.children.find? (·.named) with
  | none =>
      rw [hmarker] at hsection
      contradiction
  | some marker =>
      rw [hmarker] at hsection
      refine .mk hs hown ?_ (List.find?_some hmarker) ?_ hsection
      · rw [← hmarker, List.find?_eq_getElem?_findIdx]
      · intro j hj c hc
        obtain ⟨hlt, rfl⟩ := List.getElem?_eq_some_iff.mp hc
        simpa using List.not_of_lt_findIdx hj

/-- The entries of an outline, each with the position of its marker. -/
def marked (types : List Wording) (root : Node) : List (Position × OutlineEntry) :=
  (root.spots none).filterMap fun s => (heading? types s.2.node).map fun e => (markerOf s, e)

theorem map_snd_marked (types : List Wording) (root : Node) :
    (marked types root).map Prod.snd = headings types root := by
  rw [marked, List.map_filterMap, ← filterMap_walk, ← map_snd_spots, List.filterMap_map]
  refine List.filterMap_congr fun s _ => ?_
  rw [Function.comp_apply]
  cases heading? types s.2.node <;> rfl

theorem nodup_marked (types : List Wording) (root : Node) :
    ((marked types root).map Prod.fst).Nodup := by
  rw [marked, List.map_filterMap, List.Nodup, List.pairwise_filterMap]
  apply (root.spots_increasing none).imp
  rintro s t hst a ha b hb rfl
  -- markers of different nodes have different positions above them
  obtain ⟨x, hx, rfl⟩ := Option.map_eq_some_iff.mp ha
  obtain ⟨y, hy, hxy⟩ := Option.map_eq_some_iff.mp hb
  obtain ⟨e, -, rfl⟩ := Option.map_eq_some_iff.mp hx
  obtain ⟨f, -, rfl⟩ := Option.map_eq_some_iff.mp hy
  have hsame := (List.append_inj' hxy rfl).1
  exact absurd hst (by rw [hsame]; exact lt_irrefl _)

theorem markedAt_of_mem {types : List Wording} {root : Node} {m : Position × OutlineEntry}
    (h : m ∈ marked types root) : MarkedAt types root m.1 m.2 := by
  obtain ⟨s, hs, hm⟩ := List.mem_filterMap.mp h
  obtain ⟨e, he, rfl⟩ := Option.map_eq_some_iff.mp hm
  exact markedAt_markerOf (at?_of_mem_spots hs) he

/-- A named node below the root, of one of the types. -/
def isMarker (types : List Wording) (v : Visit) : Bool :=
  v.parent.isSome && v.node.named && types.contains v.node.type

theorem MarkedAt.mem_spots {types : List Wording} {root : Node} {p : Position} {e : OutlineEntry}
    (h : MarkedAt types root p e) :
    p ∈ ((root.spots none).filter fun s => isMarker types s.2).map Prod.fst := by
  cases h with
  | @mk q i n marker e hn _ hmarker hnamed _ htype =>
      have hat : root.at? (q ++ [i]) = some marker := (descend_child hn i).trans hmarker
      obtain ⟨parent, hmem, hparent⟩ := mem_spots_iff.mp hat
      have hbelow : parent.isSome = true := by
        rw [Option.isSome_iff_ne_none, ne_eq, hparent]
        simp
      rw [List.mem_map]
      refine ⟨_, List.mem_filter.mpr ⟨hmem, ?_⟩, rfl⟩
      simp only [isMarker, hbelow, hnamed, htype, Bool.and_self]

theorem length_marked_le (types : List Wording) (root : Node) :
    (marked types root).length ≤ root.walk.countP (isMarker types) := by
  have hsub : (marked types root).map Prod.fst ⊆
      ((root.spots none).filter fun s => isMarker types s.2).map Prod.fst := by
    intro p hp
    obtain ⟨m, hm, rfl⟩ := List.mem_map.mp hp
    exact (markedAt_of_mem hm).mem_spots
  calc (marked types root).length
      _ = ((marked types root).map Prod.fst).length := (List.length_map _).symm
      _ ≤ (((root.spots none).filter fun s => isMarker types s.2).map Prod.fst).length :=
        ((nodup_marked types root).subperm hsub).length_le
      _ = (root.spots none).countP fun s => isMarker types s.2 := by
        rw [List.length_map, List.countP_eq_length_filter]
      _ = root.walk.countP (isMarker types) := by
        rw [← map_snd_spots, List.countP_map]
        rfl

/-- **The outline is a recursion on the tree, and lists each heading once.** -/
theorem build_headings (types : List Wording) (group : String) (root : Node) :
    ∃ o, build (some root) types group = .ok o ∧ o.group = group ∧
      o.entries = headings types root ∧
      (∃ marked : List (Position × OutlineEntry), marked.map Prod.snd = o.entries ∧
        (marked.map Prod.fst).Nodup ∧ ∀ m ∈ marked, MarkedAt types root m.1 m.2) ∧
      o.entries.length ≤ root.walk.countP (isMarker types) := by
  refine ⟨_, rfl, rfl, filterMap_walk types root, ⟨marked types root, ?_, nodup_marked types root,
    fun m hm => markedAt_of_mem hm⟩, ?_⟩
  · rw [map_snd_marked, filterMap_walk]
  · rw [filterMap_walk, ← map_snd_marked, List.length_map]
    exact length_marked_le types root

/-- A document with the heading `é€😀` between blanks, and an empty heading below it. -/
def paddedDocument : Node :=
  let source := Bytes.ofText "# é€😀\x09\n##\n"
  ⟨"document", ⟨0, 16⟩, true, .null, .spanOf source, [
    ⟨"section", ⟨0, 16⟩, true, .null, .spanOf source, [
      ⟨"atx_heading", ⟨0, 13⟩, true, .null, .spanOf source, [
        ⟨"inline", ⟨1, 13⟩, true, .text "heading_content", .spanOf source, []⟩]⟩,
      ⟨"section", ⟨13, 16⟩, true, .null, .spanOf source, [
        ⟨"atx_heading", ⟨13, 16⟩, true, .null, .spanOf source, [
          ⟨"inline", ⟨15, 16⟩, true, .text "heading_content", .spanOf source, []⟩]⟩]⟩]⟩]⟩

/-- Titles lose their blanks, and a title of blanks is empty. -/
theorem build_paddedDocument : ∃ o,
    build (some paddedDocument) ["atx_heading"] "Headings" = .ok o ∧
      o.entries = [⟨"é€😀", ⟨0, 16⟩, 1⟩, ⟨"", ⟨13, 16⟩, 1⟩] := by
  obtain ⟨o, hbuild, -, hentries, -⟩ := build_headings ["atx_heading"] "Headings" paddedDocument
  exact ⟨o, hbuild, hentries.trans (by decide +kernel)⟩

end Limn.Outline
