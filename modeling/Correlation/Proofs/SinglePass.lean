import Correlation.Proofs.Endings
/-!
# A single pass

Decoding reads every byte that it passes once, each read beginning where the one before ended. What it has read of a
tree are the own bytes of the tree's nodes, in the order in which the nodes are listed, and as many of each as its kind
has (`decode_single_pass`).
-/

namespace Correlation

open Attempt Decoder Wire

/-! ## Reads of a node -/

namespace Cursor

theorem reads_foldl_noted (events : List Event) (c : Cursor) : (events.foldl noted c).reads = c.reads := by
  induction events generalizing c with
  | nil => rfl
  | cons e events ih => exact ih (c.noted e)

/-- Fields are read end to end. -/
theorem tiles_foldl_past (widths : List Nat) (c : Cursor) :
    ∃ own : List Span, (widths.foldl past c).reads = c.reads ++ own.toArray ∧
      Tiles c.position own (widths.foldl past c).position := by
  induction widths generalizing c with
  | nil => exact ⟨[], by simp, rfl⟩
  | cons width rest ih =>
    obtain ⟨own, hreads, htiles⟩ := ih (c.past width)
    refine ⟨⟨c.position, width⟩ :: own, ?_, rfl, htiles⟩
    rw [List.foldl_cons, hreads]
    simp [past]

/-- The reads of a node cover its own bytes. -/
theorem tiles_pastOwn (c : Cursor) (e : Expr) :
    ∃ own : List Span, (c.pastOwn e).reads = c.reads ++ own.toArray ∧
      Tiles c.position own (c.position + ownSize e) := by
  obtain ⟨own, hreads, htiles⟩ := tiles_foldl_past (fieldWidths e) c
  rw [position_foldl_past, foldl_fieldWidths] at htiles
  exact ⟨own, by rw [pastOwn, reads_foldl_noted, hreads], htiles⟩

end Cursor

namespace Wire

variable {image : Image} {c : Cursor}

/-! ## Reads of a tree -/

/-- The spans are those of the nodes' own bytes, node by node, from `start` to `stop`: a node's spans lie end to end over
as many bytes as the node has of its own, which stand there, and the spans of the next node begin where they end. -/
inductive NodeByNode (image : Image) : Nat → List Span → List Expr → Nat → Prop
  | done (start : Nat) : NodeByNode image start [] [] start
  | next {start stop : Nat} {own rest : List Span} {e : Expr} {es : List Expr} :
    Tiles start own (start + ownSize e) → image.Stores start (ownBytes e) →
    NodeByNode image (start + ownSize e) rest es stop → NodeByNode image start (own ++ rest) (e :: es) stop

namespace NodeByNode

variable {start middle stop : Nat} {xs ys : List Span} {es fs : List Expr}

theorem append (h : NodeByNode image start xs es middle) (h' : NodeByNode image middle ys fs stop) :
    NodeByNode image start (xs ++ ys) (es ++ fs) stop := by
  induction h with
  | done start => exact h'
  | next htiles hstores _ ih =>
    rw [List.append_assoc]
    exact .next htiles hstores (ih h')

/-- The sizes of the nodes add up to what is passed. -/
theorem foldl_ownSize (h : NodeByNode image start xs es stop) : (es.map ownSize).foldl (· + ·) start = stop := by
  induction h with
  | done start => rfl
  | next _ _ _ ih => rw [List.map_cons, List.foldl_cons, ih]

end NodeByNode

/-- From `c` to `c'` the own bytes of the nodes were read, node by node. -/
def ReadsNodes (image : Image) (c : Cursor) (es : List Expr) (c' : Cursor) : Prop :=
  ∃ made : List Span, c'.reads = c.reads ++ made.toArray ∧ NodeByNode image c.position made es c'.position

theorem ReadsNodes.append {c₁ c₂ : Cursor} {es fs : List Expr} (h : ReadsNodes image c es c₁)
    (h' : ReadsNodes image c₁ fs c₂) : ReadsNodes image c (es ++ fs) c₂ := by
  obtain ⟨xs, hreads, hxs⟩ := h
  obtain ⟨ys, hreads', hys⟩ := h'
  exact ⟨xs ++ ys, by rw [hreads', hreads]; simp, hxs.append hys⟩

/-- The root's own bytes are read first, then the arguments. -/
theorem readsNodes_of_args {depth : Nat} {e : Expr} (h : image.Readable c.position (ownBytes e))
    (hargs : ReadsNodes image (c.pastOwn e) (Expr.preorderAll e.args) ((c.pastOwn e).walkAll (depth + 1) e.args)) :
    ReadsNodes image c e.preorder (c.walk depth e) := by
  obtain ⟨own, hreads, htiles⟩ := c.tiles_pastOwn e
  have hroot : ReadsNodes image c [e] (c.pastOwn e) := by
    refine ⟨own ++ [], by rw [List.append_nil, hreads], ?_⟩
    rw [c.position_pastOwn]
    exact .next htiles h.stores (.done _)
  rw [Expr.preorder_eq, walk_eq]
  exact hroot.append hargs

mutual

theorem readsNodes_walk (depth : Nat) (c : Cursor) (e : Expr) (h : image.Readable c.position (encode e)) :
    ReadsNodes image c e.preorder (c.walk depth e) := by
  obtain ⟨hown, hargs⟩ := readable_encode_iff.1 h
  cases e with
  | operator op field args => exact readsNodes_of_args hown (readsNodes_walkAll (depth + 1) _ args hargs)
  | _ => exact readsNodes_of_args hown ⟨[], by simp [Cursor.walkAll, Expr.args], .done _⟩

theorem readsNodes_walkAll (depth : Nat) (c : Cursor) (es : List Expr) (h : image.Readable c.position (encodeAll es)) :
    ReadsNodes image c (Expr.preorderAll es) (c.walkAll depth es) := by
  cases es with
  | nil => exact ⟨[], by simp [Cursor.walkAll], .done _⟩
  | cons e rest =>
    obtain ⟨hfirst, hrest⟩ := readable_encodeAll_cons_iff.1 h
    exact (readsNodes_walk depth c e hfirst).append (readsNodes_walkAll depth (c.walk depth e) rest hrest)

end

/-- Every node of a tree that bytes can spell is spelled itself. -/
theorem Representable.nodes {t : Expr} (h : Representable t) : ∀ node ∈ t.nodes, Representable node := by
  rw [Expr.nodes_eq_preorder]
  induction h with
  | operator op field args harity hargs ih =>
    intro node hnode
    rcases List.mem_cons.1 hnode with rfl | hnode
    · exact .operator op field args harity hargs
    · obtain ⟨a, ha, hnode⟩ := Expr.mem_preorderAll.1 hnode
      exact ih a ha node hnode
  | unknownTag | unsupportedOperator | const32 | const64 | var =>
    intro node hnode
    obtain rfl := List.mem_singleton.1 hnode
    constructor <;> assumption

/-! ## Main theorem -/

/-- Whatever there is to decode in an image that ends below the last address: the reads that succeed lie end to end from
where the cursor stood to where it stops, and at most one more read is tried, which fails and is the last. When a tree
comes out, all reads have succeeded, they are those of the tree's nodes in turn, each of which has bytes of its own, and
the sizes of the nodes add up to the bytes that were passed. -/
theorem decode_single_pass {image : Image} (hspace : image.base + image.size ≤ Numeral.greatestWord) (limit : Nat)
    (c : Cursor) :
    ∃ (c' : Cursor) (made : List Span) (failed : Option Span),
      (decode image limit c).2 = c' ∧ c'.reads = c.reads ++ (made ++ failed.toList).toArray ∧
      Tiles c.position made c'.position ∧ (∀ s ∈ made, ∃ bytes, image.read s.address s.size = .ok bytes) ∧
      (∀ s ∈ failed, s.address = c'.position ∧ ∃ e, image.read s.address s.size = .error e) ∧
      ∀ t, (decode image limit c).1 = .ok t →
        failed = none ∧ NodeByNode image c.position made t.nodes c'.position ∧
          (∀ e ∈ t.nodes, 0 < ownSize e) ∧ (t.nodes.map ownSize).foldl (· + ·) c.position = c'.position := by
  have hends := descend_ends (Nat.lt_succ_of_le hspace) limit (limit + 1) c
  rw [← decode] at hends
  generalize hrun : decode image limit c = r at hends
  cases hends with
  | @done t made c' hscan =>
    refine ⟨c', made, none, rfl, by simpa using hscan.reads, hscan.tiles, hscan.there, by simp, ?_⟩
    rintro _ ⟨⟩
    obtain ⟨⟨hrep, -⟩, hbytes, rfl⟩ := decode_eq_ok_iff.1 hrun
    obtain ⟨spans, hreads, hnodes⟩ := readsNodes_walk 0 c t hbytes
    -- What was read is a list of spans in one way only.
    have hspans := (Array.append_right_inj c.reads).1 (hreads.symm.trans hscan.reads)
    rw [← Expr.nodes_eq_preorder, List.toArray_inj hspans] at hnodes
    exact ⟨rfl, hnodes, fun e he => ownSize_pos (hrep.nodes e he), hnodes.foldl_ownSize⟩
  | @short e made c' size hscan hsize hread =>
    refine ⟨_, made, some ⟨c'.position, size⟩, rfl, ?_, hscan.tiles, hscan.there, ?_, by simp⟩
    · rw [hscan.reads]
      simp
    · rintro _ ⟨⟩
      exact ⟨rfl, e, hread⟩
  | @refused e made c' hscan _ =>
    exact ⟨c', made, none, rfl, by simpa using hscan.reads, hscan.tiles, hscan.there, by simp, by simp⟩

/-- The own bytes of the sample's six nodes, one after the other, from its first byte to its last. -/
theorem decode_single_pass_sample :
    (Image.ofBytes sampleBytes).base + (Image.ofBytes sampleBytes).size ≤ Numeral.greatestWord ∧
      (decode (Image.ofBytes sampleBytes) 2 ⟨2, #[], #[]⟩).1 = .ok sample ∧
      sample.nodes.map ownSize =
        [operatorHeaderSize, const64Size, operatorHeaderSize, operatorHeaderSize, variableSize, const32Size] ∧
      ∃ (c' : Cursor) (made : List Span), (decode (Image.ofBytes sampleBytes) 2 ⟨2, #[], #[]⟩).2 = c' ∧
        c'.reads = made.toArray ∧ Tiles 2 made c'.position ∧
        NodeByNode (.ofBytes sampleBytes) 2 made sample.nodes c'.position ∧ c'.position = 38 := by
  have hspace : (Image.ofBytes sampleBytes).base + (Image.ofBytes sampleBytes).size ≤ Numeral.greatestWord := by
    decide
  have hok : (decode (Image.ofBytes sampleBytes) 2 ⟨2, #[], #[]⟩).1 = .ok sample := by
    rw [decode_eq_ok_iff.2 ⟨⟨representable_sample, Nat.le_of_eq depth_sample⟩, readable_sample, rfl⟩]
  have hsizes : sample.nodes.map ownSize =
      [operatorHeaderSize, const64Size, operatorHeaderSize, operatorHeaderSize, variableSize, const32Size] := by
    rw [Expr.nodes_eq_preorder]
    rfl
  obtain ⟨c', made, failed, hrun, hreads, htiles, -, -, htree⟩ := decode_single_pass hspace 2 ⟨2, #[], #[]⟩
  obtain ⟨rfl, hnodes, -, hsum⟩ := htree sample hok
  rw [hsizes] at hsum
  exact ⟨hspace, hok, hsizes, c', made, hrun, by simpa using hreads, htiles, hnodes, hsum.symm⟩

end Wire

end Correlation
