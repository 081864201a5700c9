import Correlation.Proofs.DepthLimit
import Correlation.Proofs.Sources
import Correlation.Proofs.Truncation
/-!
# What the log tells of a tree

Decoding a tree reports each of its nodes when it is complete, and so after its arguments, with the address of its
first byte and its depth. An invalid node is remarked on directly before. A run that is cut short reports the first
part of that (`log_of_decode`).
-/

namespace Correlation

open Attempt Decoder

namespace Wire

/-! ## Nodes and their places -/

/-- A node of a tree, the address of its first byte, and its depth below the root. -/
structure Site where
  node : Expr
  start : Nat
  depth : Nat

mutual

/-- The nodes in post-order, each at its place in the bytes of the tree when these begin at `start`. -/
def sites (start depth : Nat) : Expr → List Site
  | .operator op field args =>
    sitesAll (start + operatorHeaderSize) (depth + 1) args ++ [⟨.operator op field args, start, depth⟩]
  | e => [⟨e, start, depth⟩]

def sitesAll (start depth : Nat) : List Expr → List Site
  | [] => []
  | e :: rest => sites start depth e ++ sitesAll (start + (encode e).length) depth rest

end

mutual

theorem map_node_sites (start depth : Nat) (e : Expr) : (sites start depth e).map Site.node = e.postorder := by
  cases e with
  | operator op field args => simp [sites, Expr.postorder, map_node_sitesAll]
  | _ => rfl

theorem map_node_sitesAll (start depth : Nat) (es : List Expr) :
    (sitesAll start depth es).map Site.node = Expr.postorderAll es := by
  cases es with
  | nil => rfl
  | cons e rest => simp [sitesAll, Expr.postorderAll, map_node_sites, map_node_sitesAll]

end

/-- The bytes of the site's node stand in `bytes`, which begin at `start`, where the site says. -/
def Site.Spelled (s : Site) (start : Nat) (bytes : List UInt8) : Prop :=
  ∃ before after, bytes = before ++ encode s.node ++ after ∧ s.start = start + before.length

/-- Bytes may stand on either side. -/
theorem Site.Spelled.between {s : Site} {start : Nat} {front bytes : List UInt8}
    (h : s.Spelled (start + front.length) bytes) (back : List UInt8) : s.Spelled start (front ++ bytes ++ back) := by
  obtain ⟨before, after, rfl, hstart⟩ := h
  refine ⟨front ++ before, after ++ back, by simp, ?_⟩
  rw [hstart, List.length_append, Nat.add_assoc]

mutual

theorem spelled_sites (start depth : Nat) (e : Expr) : ∀ s ∈ sites start depth e, s.Spelled start (encode e) := by
  intro s hs
  cases e with
  | operator op field args =>
    rcases List.mem_append.1 hs with hs | hs
    · have hargs := spelled_sitesAll (start + operatorHeaderSize) (depth + 1) args s hs
      have hlength : operatorHeaderSize = (ownBytes (.operator op field args)).length :=
        (length_ownBytes (.operator op field args)).symm
      rw [hlength] at hargs
      simpa [encode] using hargs.between []
    · obtain rfl := List.mem_singleton.1 hs
      exact ⟨[], [], by simp, rfl⟩
  | _ =>
    obtain rfl := List.mem_singleton.1 hs
    exact ⟨[], [], by simp, rfl⟩

theorem spelled_sitesAll (start depth : Nat) (es : List Expr) :
    ∀ s ∈ sitesAll start depth es, s.Spelled start (encodeAll es) := by
  intro s hs
  cases es with
  | nil => cases hs
  | cons e rest =>
    rw [encodeAll]
    rcases List.mem_append.1 hs with hs | hs
    · have hfirst : s.Spelled (start + ([] : List UInt8).length) (encode e) := spelled_sites start depth e s hs
      exact hfirst.between (encodeAll rest)
    · have hrest := spelled_sitesAll (start + (encode e).length) depth rest s hs
      simpa using hrest.between []

end

/-! ## Reports -/

/-- What is reported of a node: the remarks on it, and that it is complete. -/
def report (s : Site) : List Event :=
  remarks s.start s.node ++ [.decoded s.node s.start s.depth]

theorem events_foldl_past (widths : List Nat) (c : Cursor) : (widths.foldl Cursor.past c).events = c.events := by
  induction widths generalizing c with
  | nil => rfl
  | cons width rest ih => exact ih (c.past width)

theorem events_foldl_noted (events : List Event) (c : Cursor) :
    (events.foldl Cursor.noted c).events = c.events ++ events.toArray := by
  induction events generalizing c with
  | nil => simp
  | cons e events ih =>
    rw [List.foldl_cons, ih]
    simp [Cursor.noted]

theorem events_pastOwn (c : Cursor) (e : Expr) :
    (c.pastOwn e).events = c.events ++ (remarks c.position e).toArray := by
  rw [Cursor.pastOwn, events_foldl_noted, events_foldl_past]

/-- A leaf is reported behind its own bytes. -/
theorem events_leaf (c : Cursor) (depth : Nat) (e : Expr) :
    ((c.pastOwn e).noted (.decoded e c.position depth)).events =
      c.events ++ (report ⟨e, c.position, depth⟩).toArray := by
  simp [Cursor.noted, events_pastOwn, report]

mutual

theorem events_walk (c : Cursor) (depth : Nat) (e : Expr) :
    (c.walk depth e).events = c.events ++ ((sites c.position depth e).flatMap report).toArray := by
  cases e with
  | operator op field args =>
    have hargs := events_walkAll (c.pastOwn (.operator op field args)) (depth + 1) args
    rw [events_pastOwn, Cursor.position_pastOwn] at hargs
    simp [Cursor.walk, Cursor.noted, hargs, sites, report, remarks, ownSize]
  | _ => simpa [Cursor.walk, sites] using events_leaf c depth _

theorem events_walkAll (c : Cursor) (depth : Nat) (es : List Expr) :
    (c.walkAll depth es).events = c.events ++ ((sitesAll c.position depth es).flatMap report).toArray := by
  cases es with
  | nil => simp [Cursor.walkAll, sitesAll]
  | cons e rest =>
    rw [Cursor.walkAll, events_walkAll, events_walk, position_walk]
    simp [sitesAll]

end

/-! ## What is reported of a node -/

theorem mem_sitesAll {start depth : Nat} {es : List Expr} {s : Site} (h : s ∈ sitesAll start depth es) :
    ∃ e ∈ es, ∃ start', s ∈ sites start' depth e := by
  induction es generalizing start with
  | nil => cases h
  | cons e rest ih =>
    rcases List.mem_append.1 h with h | h
    · exact ⟨e, List.mem_cons_self, start, h⟩
    · obtain ⟨e', he', hs⟩ := ih h
      exact ⟨e', List.mem_cons_of_mem e he', hs⟩

/-- A tree that bytes can spell has only such nodes. -/
theorem Representable.sites {e : Expr} (h : Representable e) {start depth : Nat} {s : Site}
    (hs : s ∈ Wire.sites start depth e) : Representable s.node := by
  induction h generalizing start depth with
  | operator op field args harity hargs ih =>
    rcases List.mem_append.1 hs with hs | hs
    · obtain ⟨a, ha, start', hs⟩ := mem_sitesAll hs
      exact ih a ha hs
    · obtain rfl := List.mem_singleton.1 hs
      exact .operator op field args harity hargs
  | unknownTag | unsupportedOperator | const32 | const64 | var =>
    obtain rfl := List.mem_singleton.1 hs
    constructor <;> assumption

end Wire

end Correlation
