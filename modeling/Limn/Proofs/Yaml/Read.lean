import Limn.Proofs.Yaml.Visit

/-! # Reading back what is written

A mapping that is written and read back is the same mapping, with every text of it replaced by what
that text reads back as (`read_write`). The keys, the order of the entries, the integers and the
truth values are kept.
-/

namespace Limn.Yaml

open Writer

/-! ## Values -/

mutual

/-- What a value after a key of a mapping at a column reads back as. -/
def reread (indent : Nat) : Value → Value
  | .map es => .map (rereadEntries (deeper indent) es)
  | .list items => .list (rereadItems indent items)
  | v => rereadLeaf (deeper indent) v

/-- What the items of a row read back as. -/
def rereadItems (indent : Nat) : List Value → List Value
  | [] => []
  | v :: rest => rereadItem (deeper indent) v :: rereadItems indent rest

/-- What a mapping in a row reads back as. -/
def rereadItem (indent : Nat) : Value → Value
  | .map es => .map (rereadEntries indent es)
  | v => v

/-- What the entries of a mapping at a column read back as. -/
def rereadEntries (indent : Nat) : List (Value × Value) → List (Value × Value)
  | [] => []
  | (k, v) :: rest => (k, reread indent v) :: rereadEntries indent rest

end

theorem reread_leaf {indent : Nat} {v : Value} (hv : IsLeaf v) :
    reread indent v = rereadLeaf (deeper indent) v := by
  cases v with
  | text s => simp [reread]
  | halved h => simp [reread]
  | int n => simp [reread]
  | bool b => simp [reread]
  | _ => exact absurd hv (by simp [IsLeaf])

/-! ## Numbers of nodes -/

theorem slotOf_token {n : Nat} {text : Wording} {plain : Bool} {v : Value}
    (h : Scalar.value (if plain then Scalar.impliedType text else .text) text = .ok v) :
    Sound (tokenNode n (.scalar text plain)) ∧
      slotOf (tokenNode n (.scalar text plain)) =
        .scalar v (Visiting.markOf (tokenNode n (.scalar text plain)) text v) := by
  cases plain with
  | true =>
      rw [if_pos rfl] at h
      exact ⟨⟨_, v, rfl, h⟩, by simp [slotOf, tokenNode, Node.kind, h]⟩
  | false =>
      rw [if_neg Bool.false_ne_true] at h
      exact ⟨⟨_, v, rfl, h⟩, by simp [slotOf, tokenNode, Node.kind, h]⟩

theorem fits_leaf {indent n : Nat} {v : Value} (hv : IsLeaf v) :
    Fits [valueNode indent n v] n (weight v) := by
  obtain ⟨text, plain, htoken⟩ := leafToken_scalar (deeper indent) v
  obtain ⟨hnode, hweight⟩ := @valueNode_leaf indent n v hv
  have hsound := (@slotOf_token n _ _ _ (value_leaf hv htoken)).1
  rw [hnode, hweight, htoken]
  exact .node rfl hsound (.nil _)

theorem kind_key {word : String} {n : Nat} (hk : IsKeyWord word) :
    (tokenNode n (keyToken (.text word))).kind = .scalar .text := by
  obtain ⟨-, -, -, -, htype⟩ := isPlain_iff.1 hk.1
  simp [keyToken, tokenNode, Node.kind, Scalar.impliedType, htype]

theorem value_key {word : String} (hk : IsKeyWord word) :
    Scalar.value (if true then Scalar.impliedType (.text word) else .text) (.text word) =
      .ok (.text word) := by
  obtain ⟨-, -, -, -, htype⟩ := isPlain_iff.1 hk.1
  rw [if_pos rfl, Scalar.impliedType, htype]
  rfl

theorem fits_key {word : String} {n : Nat} (hk : IsKeyWord word) :
    Fits [tokenNode n (keyToken (.text word))] n 1 :=
  .node rfl (slotOf_token (value_key hk)).1 (.nil _)

theorem kind_entryNodes {indent n : Nat} {es : List (Value × Value)} (hes : TidyEntries es) :
    ∀ e ∈ entryNodes indent n es, e.1.kind = .scalar .text := by
  induction es generalizing n with
  | nil => simp [entryNodes]
  | cons e es ih =>
      obtain ⟨k, v⟩ := e
      rw [TidyEntries] at hes
      obtain ⟨⟨word, rfl, hk, -⟩, -, hes⟩ := hes
      rw [entryNodes]
      exact List.forall_mem_cons.2 ⟨kind_key hk, ih hes⟩

/-- **The nodes of a document are sound and numbered in a row.** -/
theorem inherits_fits : Inherits
    (fun v => ∀ {indent n}, Fits [valueNode indent n v] n (weight v))
    (fun items => ∀ {indent n}, Fits (itemNodes indent n items) n (itemWeight items))
    (fun es => ∀ {indent n},
      Fits ((entryNodes indent n es).flatMap fun (k, v) => [k, v]) n (entryWeight es)) where
  leaf hv := fits_leaf hv
  map _ htidy hes := by
    intro indent n
    rw [valueNode, weight]
    exact .node rfl ⟨rfl, kind_entryNodes htidy⟩ hes
  list _ _ hitems := by
    intro indent n
    rw [valueNode, weight]
    exact .node rfl rfl hitems
  noItem := by
    intro indent n
    rw [itemNodes, itemWeight]
    exact .nil n
  item _ htidy hes _ hitems := by
    intro indent n
    rw [itemNodes, itemWeight, weight, inPlaceNode]
    have hitem : Fits [.mapping n .usual (entryNodes (deeper indent) (n + 1) _)] n _ :=
      .node rfl ⟨rfl, kind_entryNodes htidy⟩ hes
    exact hitem.append hitems
  noEntry := by
    intro indent n
    rw [entryNodes, entryWeight]
    exact .nil n
  entry {word v es} hk _ _ hv _ hes := by
    intro indent n
    rw [entryNodes, entryWeight, Nat.add_comm (weight v) 1]
    have hfits := ((@fits_key word n hk).append (@hv indent _)).append (@hes indent _)
    simpa using hfits

/-! ## Collecting entries -/

namespace MarkedEntry

theorem put_of_distinct {e : MarkedEntry} {row : List MarkedEntry}
    (h : ∀ f ∈ row, f.sameKey e = false) : e.put row = row ++ [e] := by
  induction row with
  | nil => rfl
  | cons f row ih =>
      rw [List.forall_mem_cons] at h
      rw [put, h.1, if_neg Bool.false_ne_true, ih h.2]
      rfl

theorem collect_of_distinct {row : List MarkedEntry}
    (h : row.Pairwise fun e f => e.sameKey f = false) : collect row = row := by
  induction row using List.reverseRecOn with
  | nil => rfl
  | append_singleton row e ih =>
      rw [List.pairwise_append] at h
      obtain ⟨hrow, -, hlast⟩ := h
      rw [collect, List.foldl_concat, ← collect, ih hrow]
      exact put_of_distinct fun f hf => hlast f hf e (by simp)

end MarkedEntry

/-! ## Building values -/

/-- All there is to know of nodes is known. -/
structure Knows (s : Visiting) (ns : List Node) : Prop where
  settled : s.settled = []
  slots {i m} : m ∈ reach i ns → s.slot m = slotOf m

namespace Knows

variable {s : Visiting} {ns ms : List Node} {n : Node}

theorem left (h : Knows s (ns ++ ms)) : Knows s ns :=
  ⟨h.settled, fun hm => h.slots (mem_reach_append.2 (.inl hm))⟩

theorem right (h : Knows s (ns ++ ms)) : Knows s ms :=
  ⟨h.settled, fun hm => h.slots (mem_reach_append.2 (.inr hm))⟩

theorem slot (h : Knows s ns) (hn : n ∈ ns) : s.slot n = slotOf n :=
  @h.slots 1 n (List.mem_append_left _ hn)

theorem children (h : Knows s [n]) : Knows s n.children :=
  ⟨h.settled, fun {i m} hm => @h.slots (i + 1) m (List.mem_append_right _ (by simpa using hm))⟩

theorem kind (h : Knows s ns) (n : Node) : s.kind n = n.kind := by
  simp [Visiting.kind, h.settled]

end Knows

theorem build_scalar {s : Visiting} {n bound : Nat} {text : Wording} {plain : Bool} {v : Value}
    (h : Scalar.value (if plain then Scalar.impliedType text else .text) text = .ok v)
    (hs : Knows s [tokenNode n (.scalar text plain)]) (hbound : 0 < bound) :
    build s bound (tokenNode n (.scalar text plain)) = v := by
  obtain ⟨bound, rfl⟩ := Nat.exists_eq_add_one.2 hbound
  conv_lhs => unfold build
  rw [hs.slot (List.mem_singleton_self _), (slotOf_token h).2]

theorem build_sequence {s : Visiting} {n bound : Nat} {items : List Node}
    (hs : Knows s [.sequence n .usual items]) :
    build s (bound + 1) (.sequence n .usual items) = .list (items.map (build s bound)) := by
  conv_lhs => unfold build
  rw [hs.slot (List.mem_singleton_self _), hs.kind]
  rfl

/-- Textual keys carry no mark. -/
theorem mark_key {k : Node} (hk : k.kind = .scalar .text) {v : Value} {mark : Option Nat}
    (h : slotOf k = .scalar v mark) : mark = none := by
  cases k with
  | scalar serial tagging text =>
      simp only [slotOf, hk, value_wording, Slot.scalar.injEq] at h
      obtain ⟨-, rfl⟩ := h
      cases text <;> rfl
  | sequence serial tagging items => simp [slotOf] at h
  | mapping serial tagging entries => simp [slotOf] at h

theorem build_mapping {s : Visiting} {n bound : Nat} {entries : List (Node × Node)}
    (hs : Knows s [.mapping n .usual entries]) (hkeys : ∀ e ∈ entries, e.1.kind = .scalar .text)
    (hdistinct : entries.Pairwise fun e f =>
      (build s bound e.1).sameKey (build s bound f.1) = false) :
    build s (bound + 1) (.mapping n .usual entries) =
      .map (entries.map fun e => (build s bound e.1, build s bound e.2)) := by
  have hmark : ∀ e ∈ entries, ∀ v mark, s.slot e.1 = .scalar v mark → mark = none := by
    intro e he v mark hslot
    have hmem : e.1 ∈ (Node.mapping n .usual entries).children :=
      List.mem_flatMap.2 ⟨e, he, by simp⟩
    exact mark_key (hkeys e he) (hs.children.slot hmem ▸ hslot)
  conv_lhs => unfold build
  rw [hs.slot (List.mem_singleton_self _), hs.kind]
  simp only [slotOf, Node.kind, merged_eq _ hkeys, Except.toOption, Option.getD_some]
  rw [MarkedEntry.collect_of_distinct, if_neg (by decide), List.map_map]
  · rfl
  · rw [List.pairwise_map]
    refine hdistinct.imp_of_mem fun {e f} he _ hne => ?_
    rw [MarkedEntry.sameKey, hne, Bool.false_or, Bool.and_eq_false_iff]
    -- Keys that are no number have no mark by which they could be the same.
    left
    cases hslot : s.slot e.1 with
    | scalar v mark =>
        rw [hmark e he v mark hslot]
        rfl
    | untouched => rfl
    | met => rfl

/-- A value is built as it reads back. -/
def BuildsValue (v : Value) : Prop :=
  ∀ {s : Visiting} {indent n bound : Nat}, Knows s [valueNode indent n v] → weight v ≤ bound →
    build s bound (valueNode indent n v) = reread indent v

/-- The items of a row are built as they read back. -/
def BuildsItems (items : List Value) : Prop :=
  ∀ {s : Visiting} {indent n bound : Nat}, Knows s (itemNodes indent n items) →
    itemWeight items ≤ bound →
      (itemNodes indent n items).map (build s bound) = rereadItems indent items

/-- The entries of a mapping are built as they read back. -/
def BuildsEntries (es : List (Value × Value)) : Prop :=
  ∀ {s : Visiting} {indent n bound : Nat},
    Knows s ((entryNodes indent n es).flatMap fun (k, v) => [k, v]) → entryWeight es ≤ bound →
      (entryNodes indent n es).map (fun e => (build s bound e.1, build s bound e.2)) =
        rereadEntries indent es

theorem buildsValue_leaf {v : Value} (hv : IsLeaf v) : BuildsValue v := by
  intro s indent n bound hs hbound
  obtain ⟨text, plain, htoken⟩ := leafToken_scalar (deeper indent) v
  obtain ⟨hnode, hweight⟩ := @valueNode_leaf indent n v hv
  rw [hnode, htoken] at hs ⊢
  rw [reread_leaf hv]
  exact build_scalar (value_leaf hv htoken) hs (by omega)

theorem key_rereadEntries {indent : Nat} {es : List (Value × Value)} (hes : TidyEntries es) :
    ∀ f ∈ rereadEntries indent es, ∃ word, f.1 = .text word ∧ ∃ e ∈ es, e.1 = .text word := by
  induction es with
  | nil => simp [rereadEntries]
  | cons e es ih =>
      obtain ⟨k, v⟩ := e
      rw [TidyEntries] at hes
      obtain ⟨⟨word, rfl, -, -⟩, -, hes⟩ := hes
      rw [rereadEntries, List.forall_mem_cons]
      refine ⟨⟨word, rfl, _, List.mem_cons_self, rfl⟩, fun f hf => ?_⟩
      obtain ⟨word, hword, e, he, hkey⟩ := ih hes f hf
      exact ⟨word, hword, e, List.mem_cons_of_mem _ he, hkey⟩

/-- The keys of a mapping stay apart. -/
theorem distinct_rereadEntries {indent : Nat} {es : List (Value × Value)} (hes : TidyEntries es) :
    (rereadEntries indent es).Pairwise fun e f => e.1.sameKey f.1 = false := by
  induction es with
  | nil => simp [rereadEntries]
  | cons e es ih =>
      obtain ⟨k, v⟩ := e
      rw [TidyEntries] at hes
      obtain ⟨⟨word, rfl, -, hdistinct⟩, -, hes⟩ := hes
      rw [rereadEntries, List.pairwise_cons]
      refine ⟨fun f hf => ?_, ih hes⟩
      obtain ⟨other, hother, e, he, hkey⟩ := key_rereadEntries hes f hf
      have hne : word ≠ other := fun h => hdistinct e he (by rw [hkey, h])
      rw [hother]
      exact beq_false_of_ne hne

/-- A mapping of which the entries are known is built from them. -/
theorem BuildsEntries.mapping {es : List (Value × Value)} (htidy : TidyEntries es)
    (hes : BuildsEntries es) {s : Visiting} {indent n start bound : Nat}
    (hs : Knows s [.mapping n .usual (entryNodes indent start es)])
    (hbound : entryWeight es ≤ bound) :
    build s (bound + 1) (.mapping n .usual (entryNodes indent start es)) =
      .map (rereadEntries indent es) := by
  -- The keys are compared as they are built, so they are built first.
  have hbuild := hes hs.children hbound
  have hdistinct := @distinct_rereadEntries indent es htidy
  rw [← hbuild, List.pairwise_map] at hdistinct
  rw [build_mapping hs (kind_entryNodes htidy) hdistinct, hbuild]

theorem buildsValue_map {es : List (Value × Value)} (htidy : TidyEntries es)
    (hes : BuildsEntries es) : BuildsValue (.map es) := by
  intro s indent n bound hs hbound
  rw [weight] at hbound
  obtain ⟨bound, rfl⟩ : ∃ b, bound = b + 1 := ⟨bound - 1, by omega⟩
  rw [valueNode] at hs ⊢
  rw [reread]
  exact hes.mapping htidy hs (by omega)

theorem buildsValue_list {items : List Value} (hitems : BuildsItems items) :
    BuildsValue (.list items) := by
  intro s indent n bound hs hbound
  rw [weight] at hbound
  obtain ⟨bound, rfl⟩ : ∃ b, bound = b + 1 := ⟨bound - 1, by omega⟩
  rw [valueNode] at hs ⊢
  rw [reread, build_sequence hs]
  exact congrArg Value.list (hitems hs.children (by omega))

theorem buildsItems_cons {es : List (Value × Value)} {items : List Value} (htidy : TidyEntries es)
    (hes : BuildsEntries es) (hitems : BuildsItems items) : BuildsItems (.map es :: items) := by
  intro s indent n bound hs hbound
  rw [itemWeight, weight] at hbound
  obtain ⟨bound, rfl⟩ : ∃ b, bound = b + 1 := ⟨bound - 1, by omega⟩
  rw [itemNodes, inPlaceNode] at hs ⊢
  have hfirst := @Knows.left _ [_] _ hs
  have hrest := @Knows.right _ [_] _ hs
  rw [List.map_cons, hes.mapping htidy hfirst (by omega), hitems hrest (by omega), rereadItems,
    rereadItem]

theorem buildsEntries_cons {word : String} {v : Value} {es : List (Value × Value)}
    (hk : IsKeyWord word) (hv : BuildsValue v) (hes : BuildsEntries es) :
    BuildsEntries ((.text word, v) :: es) := by
  intro s indent n bound hs hbound
  rw [entryWeight] at hbound
  rw [entryNodes, List.flatMap_cons] at hs
  have hkey := @Knows.left _ [_] _ hs.left
  have hvalue := @Knows.right _ [_] _ hs.left
  rw [entryNodes, List.map_cons, hv hvalue (by omega), hes hs.right (by omega), rereadEntries]
  rw [keyToken] at hkey ⊢
  rw [build_scalar (value_key hk) hkey (by omega)]

/-- Values, rows and entries are built as they read back, from the parts to the whole. -/
theorem inherits_builds : Inherits BuildsValue BuildsItems BuildsEntries where
  leaf := buildsValue_leaf
  map _ := buildsValue_map
  list _ _ := buildsValue_list
  noItem := by
    intro s indent n bound _ _
    simp [itemNodes, rereadItems]
  item _ htidy hes _ := buildsItems_cons htidy hes
  noEntry := by
    intro s indent n bound _ _
    simp [entryNodes, rereadEntries]
  entry hk _ _ hv _ := buildsEntries_cons hk hv

/-! ## Documents -/

/-- **What is written reads back**, with every text of it as that text reads back. -/
theorem read_write {es : List (Value × Value)} (hne : es ≠ []) (hes : TidyEntries es) :
    read (write (.map es)) = .ok (.map (rereadEntries 0 es)) := by
  have hfits : Fits [.mapping 0 .usual (entryNodes 0 1 es)] 0 (entryWeight es + 1) :=
    .node rfl ⟨rfl, kind_entryNodes hes⟩ (inherits_fits.entries hes)
  obtain ⟨s, hexamine, hsettled, hslots⟩ := examine_sound hfits
  have hbuilds : BuildsEntries es := inherits_builds.entries hes
  have hbuild := hbuilds.mapping hes ⟨hsettled, hslots⟩ (Nat.le_add_right (entryWeight es) 2)
  rw [read, compose_write hne hes]
  simp only [bind, Except.bind, hexamine]
  exact congrArg Except.ok hbuild

end Limn.Yaml
