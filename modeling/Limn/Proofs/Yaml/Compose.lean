import Limn.Proofs.Yaml.Block
import Limn.Yaml.Node

/-! # From tokens to nodes

The tokens of a block document make one node for each scalar, row and mapping of it, numbered in the
order of their first tokens. No anchor or tag occurs, so a reader between two tokens is known by the
tokens to come and the number of nodes so far.
-/

namespace Limn.Yaml

open Writer

/-! ## Reading one token -/

/-- Tokens to come after so many nodes, with no names given. -/
def reading (ts : List Token) (count : Nat) : Reading :=
  { tokens := ts, count }

namespace Reader

/-- A token that says what it is by itself: no anchor, tag or alias, and no fault. -/
def IsSimple : Token → Prop
  | .broken _ | .anchor _ | .tag _ | .alias _ => False
  | _ => True

theorem run_bind_ok {α β : Type} {m : Reader α} {f : α → Reader β} {r r' : Reading} {a : α}
    (h : m.run r = .ok (a, r')) : (m >>= f).run r = (f a).run r' := by
  rw [StateT.run_bind, h]
  rfl

variable {t : Token} {ts : List Token} {n : Nat}

theorem run_peek (ht : IsSimple t) :
    peek.run (reading (t :: ts) n) = .ok (t, reading (t :: ts) n) := by
  cases t <;> first | rfl | exact absurd ht (by simp [IsSimple])

theorem run_dropIf_self (ht : IsSimple t) :
    (dropIf t).run (reading (t :: ts) n) = .ok (true, reading ts n) := by
  rw [dropIf, run_bind_ok (run_peek ht), if_pos rfl]
  rfl

theorem run_dropIf_of_ne {t' : Token} (ht : IsSimple t) (hne : t ≠ t') :
    (dropIf t').run (reading (t :: ts) n) = .ok (false, reading (t :: ts) n) := by
  rw [dropIf, run_bind_ok (run_peek ht), if_neg hne]
  rfl

end Reader

/-! ## Nodes of values -/

/-- The node of a scalar token. -/
def tokenNode (serial : Nat) : Token → Node
  | .scalar text plain => .scalar serial (if plain then .implied else .usual) text
  | _ => .scalar serial .implied ""

mutual

/-- The number of nodes of a value. -/
def weight : Value → Nat
  | .map es => entryWeight es + 1
  | .list items => itemWeight items + 1
  | _ => 1

/-- The number of nodes of the items of a row. -/
def itemWeight : List Value → Nat
  | [] => 0
  | v :: rest => weight v + itemWeight rest

/-- The number of nodes of the entries of a mapping. -/
def entryWeight : List (Value × Value) → Nat
  | [] => 0
  | (_, v) :: rest => weight v + 1 + entryWeight rest

end

mutual

/-- The node of a value after a key, with the number it gets. -/
def valueNode (indent serial : Nat) : Value → Node
  | .map es => .mapping serial .usual (entryNodes (deeper indent) (serial + 1) es)
  | .list items => .sequence serial .usual (itemNodes indent (serial + 1) items)
  | v => tokenNode serial (leafToken (deeper indent) v)

/-- The nodes of the items of a row. -/
def itemNodes (indent serial : Nat) : List Value → List Node
  | [] => []
  | v :: rest => inPlaceNode (deeper indent) serial v :: itemNodes indent (serial + weight v) rest

/-- The node of a mapping in a row. -/
def inPlaceNode (indent serial : Nat) : Value → Node
  | .map es => .mapping serial .usual (entryNodes indent (serial + 1) es)
  | _ => .scalar serial .implied ""

/-- The nodes of the entries of a mapping. -/
def entryNodes (indent serial : Nat) : List (Value × Value) → List (Node × Node)
  | [] => []
  | (k, v) :: rest =>
    (tokenNode serial (keyToken k), valueNode indent (serial + 1) v) ::
      entryNodes indent (serial + (weight v + 1)) rest

end

/-! ## Reading nodes -/

open Reader

theorem run_node_scalar {place : Place} {bound n : Nat} {text : Wording} {plain : Bool}
    {ts : List Token} :
    (node usualHandles place (bound + 1)).run (reading (.scalar text plain :: ts) n) =
      .ok (tokenNode n (.scalar text plain), reading ts (n + 1)) := by
  rw [node, run_bind_ok (@run_peek (.scalar text plain) ts n trivial)]
  cases plain <;> rfl

theorem run_node_mapping {place : Place} {bound n n' : Nat} {ts ts' : List Token}
    {entries : List (Node × Node)} (hplace : place ≠ .flow)
    (h : (blockEntries usualHandles bound).run (reading ts (n + 1)) =
      .ok (entries, reading ts' n')) :
    (node usualHandles place (bound + 1)).run (reading (.blockMappingStart :: ts) n) =
      .ok (.mapping n .usual entries, reading ts' n') := by
  rw [node, run_bind_ok (@run_peek .blockMappingStart ts n trivial)]
  have hrun : (do complete none (.mapping n .usual (← blockEntries usualHandles bound))
      : Reader Node).run (reading ts (n + 1)) =
        .ok (.mapping n .usual entries, reading ts' n') := by
    rw [run_bind_ok h]
    rfl
  cases place with
  | flow => exact absurd rfl hplace
  | block => exact hrun
  | entry => exact hrun

theorem run_node_flush {bound n n' : Nat} {ts ts' : List Token} {items : List Node}
    (h : (flushItems usualHandles bound).run (reading (.blockEntry :: ts) (n + 1)) =
      .ok (items, reading ts' n')) :
    (node usualHandles .entry (bound + 1)).run (reading (.blockEntry :: ts) n) =
      .ok (.sequence n .usual items, reading ts' n') := by
  rw [node, run_bind_ok (@run_peek .blockEntry ts n trivial)]
  have hrun : (do complete none (.sequence n .usual (← flushItems usualHandles bound))
      : Reader Node).run (reading (.blockEntry :: ts) (n + 1)) =
        .ok (.sequence n .usual items, reading ts' n') := by
    rw [run_bind_ok h]
    rfl
  exact hrun

theorem run_nodeUnless {place : Place} {ends : List Token} {bound n : Nat} {t : Token}
    {ts : List Token} (ht : IsSimple t) (hends : t ∉ ends) :
    (nodeUnless usualHandles place ends (bound + 1)).run (reading (t :: ts) n) =
      (node usualHandles place bound).run (reading (t :: ts) n) := by
  rw [nodeUnless, run_bind_ok (run_peek ht), if_neg (by simpa using hends)]

theorem run_flushItems_cons {bound n n' : Nat} {ts ts' : List Token} {item : Node}
    {items : List Node} {r : Reading}
    (hitem : (nodeUnless usualHandles .block [.blockEntry, .key, .value, .blockEnd] bound).run
      (reading ts n) = .ok (item, reading ts' n'))
    (hitems : (flushItems usualHandles bound).run (reading ts' n') = .ok (items, r)) :
    (flushItems usualHandles (bound + 1)).run (reading (.blockEntry :: ts) n) =
      .ok (item :: items, r) := by
  rw [flushItems, run_bind_ok (@run_dropIf_self .blockEntry ts n trivial), if_pos rfl,
    run_bind_ok hitem, run_bind_ok hitems]
  rfl

theorem run_flushItems_end {bound n : Nat} {t : Token} {ts : List Token} (ht : IsSimple t)
    (hne : t ≠ .blockEntry) :
    (flushItems usualHandles (bound + 1)).run (reading (t :: ts) n) =
      .ok ([], reading (t :: ts) n) := by
  rw [flushItems, run_bind_ok (run_dropIf_of_ne ht hne), if_neg Bool.false_ne_true]
  rfl

theorem run_blockEntries_cons {bound n n₁ n₂ : Nat} {ts ts₁ ts₂ : List Token} {k v : Node}
    {entries : List (Node × Node)} {r : Reading}
    (hk : (nodeUnless usualHandles .entry [.key, .value, .blockEnd] bound).run (reading ts n) =
      .ok (k, reading (.value :: ts₁) n₁))
    (hv : (nodeUnless usualHandles .entry [.key, .value, .blockEnd] bound).run (reading ts₁ n₁) =
      .ok (v, reading ts₂ n₂))
    (hentries : (blockEntries usualHandles bound).run (reading ts₂ n₂) = .ok (entries, r)) :
    (blockEntries usualHandles (bound + 1)).run (reading (.key :: ts) n) =
      .ok ((k, v) :: entries, r) := by
  rw [blockEntries, run_bind_ok (@run_dropIf_self .key ts n trivial), if_pos rfl,
    run_bind_ok hk, run_bind_ok (@run_dropIf_self .value ts₁ n₁ trivial), if_pos rfl,
    run_bind_ok hv, run_bind_ok hentries]
  rfl

theorem run_blockEntries_end {bound n : Nat} {ts : List Token} :
    (blockEntries usualHandles (bound + 1)).run (reading (.blockEnd :: ts) n) =
      .ok ([], reading ts n) :=
  rfl

/-! ## Reading values -/

theorem leafToken_scalar (indent : Nat) (v : Value) :
    ∃ text plain, leafToken indent v = .scalar text plain := by
  cases v <;> exact ⟨_, _, rfl⟩

theorem valueNode_leaf {indent n : Nat} {v : Value} (hv : IsLeaf v) :
    valueNode indent n v = tokenNode n (leafToken (deeper indent) v) ∧ weight v = 1 := by
  cases v with
  | text s => simp [valueNode, weight]
  | halved h => simp [valueNode, weight]
  | int n => simp [valueNode, weight]
  | bool b => simp [valueNode, weight]
  | _ => exact absurd hv (by simp [IsLeaf])

/-- The tokens of a value start with one that can only start a node. -/
theorem valueTokens_head (indent : Nat) {v : Value} (hv : Tidy v) :
    ∃ t ts, valueTokens indent v = t :: ts ∧ IsSimple t ∧ t ∉ [Token.key, .value, .blockEnd] := by
  cases v with
  | map es =>
      rw [valueTokens]
      exact ⟨_, _, rfl, trivial, by simp⟩
  | list items =>
      rw [Tidy] at hv
      obtain ⟨v, items, rfl⟩ := List.exists_cons_of_ne_nil hv.1
      rw [valueTokens, itemTokens]
      exact ⟨_, _, rfl, trivial, by simp⟩
  | _ =>
      rw [Tidy] at hv
      · obtain ⟨text, plain, htoken⟩ := leafToken_scalar (deeper indent) _
        rw [valueTokens_leaf hv, htoken]
        exact ⟨_, _, rfl, trivial, by simp⟩
      all_goals simp

/-- A value after a key becomes its node, provided that what follows is no item. -/
def ComposesValue (v : Value) : Prop :=
  ∀ {indent bound n : Nat} {t : Token} {ts : List Token}, IsSimple t → t ≠ .blockEntry →
    3 * (valueTokens indent v).length + 2 ≤ bound →
      (node usualHandles .entry bound).run (reading (valueTokens indent v ++ t :: ts) n) =
        .ok (valueNode indent n v, reading (t :: ts) (n + weight v))

/-- The items of a row become their nodes. -/
def ComposesItems (items : List Value) : Prop :=
  ∀ {indent bound n : Nat} {t : Token} {ts : List Token}, IsSimple t → t ≠ .blockEntry →
    3 * (itemTokens indent items).length + 1 ≤ bound →
      (flushItems usualHandles bound).run (reading (itemTokens indent items ++ t :: ts) n) =
        .ok (itemNodes indent n items, reading (t :: ts) (n + itemWeight items))

/-- The entries of a mapping become their nodes. -/
def ComposesEntries (es : List (Value × Value)) : Prop :=
  ∀ {indent bound n : Nat} {ts : List Token}, 3 * (entryTokens indent es).length + 1 ≤ bound →
      (blockEntries usualHandles bound).run (reading (entryTokens indent es ++ .blockEnd :: ts) n) =
        .ok (entryNodes indent n es, reading ts (n + entryWeight es))

theorem composesValue_leaf {v : Value} (hv : IsLeaf v) : ComposesValue v := by
  intro indent bound n t ts _ _ hbound
  obtain ⟨text, plain, htoken⟩ := leafToken_scalar (deeper indent) v
  obtain ⟨hnode, hweight⟩ := @valueNode_leaf indent n v hv
  obtain ⟨bound, rfl⟩ : ∃ b, bound = b + 1 := ⟨bound - 1, by omega⟩
  rw [valueTokens_leaf hv, hnode, hweight, htoken]
  exact run_node_scalar

theorem composesValue_map {es : List (Value × Value)} (hes : ComposesEntries es) :
    ComposesValue (.map es) := by
  intro indent bound n t ts _ _ hbound
  obtain ⟨bound, rfl⟩ : ∃ b, bound = b + 1 := ⟨bound - 1, by omega⟩
  rw [valueTokens] at hbound ⊢
  simp only [List.length_append, List.length_cons, List.length_nil] at hbound
  rw [valueNode, weight]
  have hrun := @hes (deeper indent) bound (n + 1) (t :: ts) (by omega)
  rw [show n + (entryWeight es + 1) = n + 1 + entryWeight es by omega]
  simpa using run_node_mapping (by decide) hrun

theorem composesValue_list {items : List Value} (hne : items ≠ []) (hitems : ComposesItems items) :
    ComposesValue (.list items) := by
  intro indent bound n t ts ht hne' hbound
  obtain ⟨bound, rfl⟩ : ∃ b, bound = b + 1 := ⟨bound - 1, by omega⟩
  rw [valueTokens] at hbound ⊢
  rw [valueNode, weight]
  have hrun := @hitems indent bound (n + 1) t ts ht hne' (by omega)
  rw [show n + (itemWeight items + 1) = n + 1 + itemWeight items by omega]
  obtain ⟨v, items, rfl⟩ := List.exists_cons_of_ne_nil hne
  rw [itemTokens] at hrun ⊢
  exact run_node_flush hrun

theorem composesItems_nil : ComposesItems [] := by
  intro indent bound n t ts ht hne hbound
  obtain ⟨bound, rfl⟩ : ∃ b, bound = b + 1 := ⟨bound - 1, by omega⟩
  rw [itemTokens, itemNodes, itemWeight]
  exact run_flushItems_end ht hne

theorem composesItems_cons {es : List (Value × Value)} {items : List Value}
    (hes : ComposesEntries es) (hitems : ComposesItems items) :
    ComposesItems (.map es :: items) := by
  intro indent bound n t ts ht hne hbound
  rw [itemTokens, inPlaceTokens] at hbound ⊢
  simp only [List.length_append, List.length_cons, List.length_nil] at hbound
  -- An item is three calls deep: its row, the test for its absence, and the node itself.
  obtain ⟨bound, rfl⟩ : ∃ b, bound = b + 3 := ⟨bound - 3, by omega⟩
  have hentries :=
    @hes (deeper indent) bound (n + 1) (itemTokens indent items ++ t :: ts) (by omega)
  have hitem := run_node_mapping (show Place.block ≠ .flow by decide) hentries
  rw [← @run_nodeUnless _ [.blockEntry, .key, .value, .blockEnd] _ _ .blockMappingStart _ trivial
    (by simp)] at hitem
  have hrest := @hitems indent (bound + 2) (n + 1 + entryWeight es) t ts ht hne (by omega)
  have hrun := run_flushItems_cons hitem hrest
  rw [itemNodes, inPlaceNode, itemWeight, weight,
    show n + (entryWeight es + 1) = n + 1 + entryWeight es by omega,
    show n + (entryWeight es + 1 + itemWeight items) = n + 1 + entryWeight es + itemWeight items
      by omega]
  simpa using hrun

theorem composesEntries_nil : ComposesEntries [] := by
  intro indent bound n ts hbound
  obtain ⟨bound, rfl⟩ : ∃ b, bound = b + 1 := ⟨bound - 1, by omega⟩
  rw [entryTokens, entryNodes, entryWeight]
  exact run_blockEntries_end

/-- After the entries of a mapping comes the next key or the end. -/
theorem entryTokens_head (indent : Nat) (es : List (Value × Value)) (ts : List Token) :
    ∃ t ts', entryTokens indent es ++ .blockEnd :: ts = t :: ts' ∧ IsSimple t ∧
      t ≠ .blockEntry := by
  cases es with
  | nil =>
      rw [entryTokens]
      exact ⟨_, _, rfl, trivial, by simp⟩
  | cons e es =>
      rw [entryTokens]
      exact ⟨_, _, rfl, trivial, by simp⟩

theorem composesEntries_cons {word : String} {v : Value} {es : List (Value × Value)}
    (htidy : Tidy v) (hv : ComposesValue v) (hes : ComposesEntries es) :
    ComposesEntries ((.text word, v) :: es) := by
  intro indent bound n ts hbound
  rw [entryTokens] at hbound ⊢
  simp only [List.length_append, List.length_cons] at hbound
  obtain ⟨bound, rfl⟩ : ∃ b, bound = b + 3 := ⟨bound - 3, by omega⟩
  -- The value ends where the next key or the end of the mapping shows, so its row takes no more.
  obtain ⟨t, ts', hnext, ht, hne⟩ := entryTokens_head indent es ts
  obtain ⟨t₁, ts₁, htokens, ht₁, hends⟩ := valueTokens_head indent htidy
  have hvalue := @hv indent (bound + 1) (n + 1) t ts' ht hne (by omega)
  have hrest := @hes indent (bound + 2) (n + 1 + weight v) ts (by omega)
  rw [hnext] at hrest
  rw [htokens, List.cons_append, ← run_nodeUnless ht₁ hends] at hvalue
  have hkey := @run_node_scalar .entry bound n word true
    (.value :: (t₁ :: (ts₁ ++ t :: ts')))
  rw [← @run_nodeUnless _ [.key, .value, .blockEnd] _ _ (.scalar word true) _ trivial
    (by simp)] at hkey
  have hrun := run_blockEntries_cons hkey hvalue hrest
  rw [entryNodes, entryWeight, show n + (weight v + 1) = n + 1 + weight v by omega,
    show n + (weight v + 1 + entryWeight es) = n + 1 + weight v + entryWeight es by omega]
  simpa [keyToken, htokens, hnext] using hrun

/-- Values, rows and entries become their nodes, from the parts to the whole. -/
theorem inherits_composes : Inherits ComposesValue ComposesItems ComposesEntries where
  leaf := composesValue_leaf
  map _ _ := composesValue_map
  list hne _ := composesValue_list hne
  noItem := composesItems_nil
  item _ _ hes _ := composesItems_cons hes
  noEntry := composesEntries_nil
  entry _ _ htidy hv _ := composesEntries_cons htidy hv

/-! ## Documents -/

/-- A stream of one mapping is a document. -/
theorem run_document {bound n : Nat} {ts : List Token} {root : Node} (hbound : 0 < bound)
    (h : (node usualHandles .block bound).run (reading (.blockMappingStart :: ts) 0) =
      .ok (root, reading [.streamEnd] n)) :
    (document bound).run (reading (.blockMappingStart :: ts) 0) =
      .ok (some root, reading [.streamEnd] n) := by
  obtain ⟨bound, rfl⟩ := Nat.exists_eq_add_one.2 hbound
  -- No directive comes first, and no marker before the end.
  rw [document, run_bind_ok (@run_peek .blockMappingStart ts 0 trivial)]
  simp only [map_eq_pure_bind, bind_assoc]
  rw [run_bind_ok h]
  rfl

/-- **The text of a mapping is composed into its node.** -/
theorem compose_write {es : List (Value × Value)} (hne : es ≠ []) (hes : TidyEntries es) :
    compose (write (.map es)) =
      .ok ⟨some (.mapping 0 .usual (entryNodes 0 1 es)), entryWeight es + 1⟩ := by
  have hentries : ComposesEntries es := inherits_composes.entries hes
  obtain ⟨bound, hbound⟩ : ∃ bound, 3 * (tokens (write (.map es))).length + 3 = bound + 1 :=
    ⟨_, rfl⟩
  have htokens := tokens_write hne hes
  have hlength := congrArg List.length htokens
  simp only [List.length_append, List.length_cons, List.length_nil] at hlength
  have hrun := @hentries 0 bound 1 [.streamEnd] (by omega)
  have hnode := run_node_mapping (show Place.block ≠ .flow by decide) hrun
  have hdocument := run_document (Nat.succ_pos bound) hnode
  have hstart : (document (bound + 1)).run { tokens := tokens (write (.map es)) } =
      .ok (some (.mapping 0 .usual (entryNodes 0 1 es)),
        reading [.streamEnd] (1 + entryWeight es)) := by
    rw [htokens]
    exact hdocument
  unfold compose
  simp only [hbound, hstart]
  rw [Nat.add_comm]
  rfl

end Limn.Yaml
