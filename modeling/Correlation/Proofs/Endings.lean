import Correlation.Proofs.RoundTrip
import Correlation.Proofs.Straight
/-!
# How decoding ends

Decoding reads forwards, every read beginning where the one before ended. `descend_ends` says how that can end:
with a tree, at a read whose bytes are not all there, or at a node that lies too deep. Nothing else stops it
where the image ends below the last address (`decode_ends`).
-/

namespace Correlation

open Attempt Decoder

/-! ## Bytes that are there -/

namespace Image

/-- A byte of the image has the address. -/
def Holds (image : Image) (address : Nat) : Prop :=
  image.base ≤ address ∧ address < image.base + image.size

theorem holds_of_read {image : Image} {address count : Nat} {bytes : List UInt8}
    (h : image.read address count = .ok bytes) {a : Nat} (hfrom : address ≤ a) (hto : a < address + count) :
    image.Holds a := by
  unfold read at h
  split at h
  case isTrue hbounds =>
    unfold Holds
    omega
  case isFalse => cases h

/-- A read that fails lacks one of its bytes, and says where. -/
theorem read_eq_error {image : Image} {address count : Nat} {e : Failure}
    (h : image.read address count = .error e) (hcount : 0 < count) :
    e = .outOfBounds address count image.size ∧ ∃ a, address ≤ a ∧ a < address + count ∧ ¬ image.Holds a := by
  refine ⟨outOfBounds_of_read h, ?_⟩
  unfold read at h
  split at h
  case isTrue => cases h
  case isFalse hbounds =>
    unfold Holds
    -- The first byte is missing below the base, the last one past the end.
    by_cases hbase : image.base ≤ address
    · exact ⟨address + count - 1, by omega, by omega, by omega⟩
    · exact ⟨address, by omega, by omega, by omega⟩

end Image

/-! ## Reads without a gap -/

/-- The spans lie end to end, the first at `start`, the last up to `stop`. -/
def Tiles : Nat → List Span → Nat → Prop
  | start, [], stop => start = stop
  | start, s :: rest, stop => s.address = start ∧ Tiles (start + s.size) rest stop

theorem tiles_append {start stop : Nat} {xs ys : List Span} :
    Tiles start (xs ++ ys) stop ↔ ∃ middle, Tiles start xs middle ∧ Tiles middle ys stop := by
  induction xs generalizing start with
  | nil => simp [Tiles]
  | cons s xs ih => simp [Tiles, ih, and_assoc]

theorem le_of_tiles {start stop : Nat} {spans : List Span} (h : Tiles start spans stop) : start ≤ stop := by
  induction spans generalizing start with
  | nil => exact Nat.le_of_eq h
  | cons s rest ih => exact Nat.le_trans (Nat.le_add_right _ _) (ih h.2)

theorem bounds_of_tiles {start stop : Nat} {spans : List Span} (h : Tiles start spans stop) :
    ∀ s ∈ spans, start ≤ s.address ∧ s.address + s.size ≤ stop := by
  induction spans generalizing start with
  | nil => simp
  | cons s rest ih =>
    obtain ⟨rfl, hrest⟩ := h
    intro x hx
    rcases List.mem_cons.1 hx with rfl | hx
    · exact ⟨Nat.le_refl _, le_of_tiles hrest⟩
    · have hbounds := ih hrest x hx
      omega

/-- Every address between the ends lies in one of the spans. -/
theorem exists_span_of_tiles {start stop a : Nat} {spans : List Span} (h : Tiles start spans stop)
    (hfrom : start ≤ a) (hto : a < stop) : ∃ s ∈ spans, s.address ≤ a ∧ a < s.address + s.size := by
  induction spans generalizing start with
  | nil =>
    obtain rfl : start = stop := h
    omega
  | cons s rest ih =>
    obtain ⟨rfl, hrest⟩ := h
    by_cases ha : a < s.address + s.size
    · exact ⟨s, List.mem_cons_self, hfrom, ha⟩
    · obtain ⟨x, hx, hin⟩ := ih hrest (by omega)
      exact ⟨x, List.mem_cons_of_mem s hx, hin⟩

/-- From `c` to `c'` the spans were read, all of them there, one after the other. -/
structure Cursor.Scans (image : Image) (c : Cursor) (spans : List Span) (c' : Cursor) : Prop where
  reads : c'.reads = c.reads ++ spans.toArray
  tiles : Tiles c.position spans c'.position
  there : ∀ s ∈ spans, ∃ bytes, image.read s.address s.size = .ok bytes

namespace Cursor.Scans

variable {image : Image} {c c₁ c₂ : Cursor} {xs ys : List Span}

theorem refl (c : Cursor) : c.Scans image [] c :=
  ⟨by simp, rfl, nofun⟩

theorem noted (h : c.Scans image xs c₁) (e : Event) : c.Scans image xs (c₁.noted e) :=
  ⟨h.reads, h.tiles, h.there⟩

theorem append (h : c.Scans image xs c₁) (h' : c₁.Scans image ys c₂) : c.Scans image (xs ++ ys) c₂ where
  reads := by rw [h'.reads, h.reads]; simp
  tiles := tiles_append.2 ⟨_, h.tiles, h'.tiles⟩
  there := by
    intro s hs
    rcases List.mem_append.1 hs with hs | hs
    · exact h.there s hs
    · exact h'.there s hs

theorem holds (h : c.Scans image xs c₁) {a : Nat} (hfrom : c.position ≤ a) (hto : a < c₁.position) :
    image.Holds a := by
  obtain ⟨s, hs, hin⟩ := exists_span_of_tiles h.tiles hfrom hto
  obtain ⟨bytes, hread⟩ := h.there s hs
  exact Image.holds_of_read hread hin.1 hin.2

end Cursor.Scans

/-! ## Ways to end -/

/-- How a decoder ends that reads forwards from `c`: it is done, it asks for bytes that are not all there, or it
refuses after spans for which it may. -/
inductive Ends {α : Type} (image : Image) (c : Cursor) (refuses : Failure → List Span → Prop) :
    Except Failure α × Cursor → Prop
  | done {a spans c'} : c.Scans image spans c' → Ends image c refuses (.ok a, c')
  | short {e spans c' size} : c.Scans image spans c' → 0 < size → image.read c'.position size = .error e →
    Ends image c refuses (.error e, { c' with reads := c'.reads.push ⟨c'.position, size⟩ })
  | refused {e spans c'} : c.Scans image spans c' → refuses e spans → Ends image c refuses (.error e, c')

namespace Ends

variable {image : Image} {c : Cursor} {α β : Type} {refuses : Failure → List Span → Prop}

theorem mono {refuses' : Failure → List Span → Prop} {r : Except Failure α × Cursor} (h : Ends image c refuses r)
    (himp : ∀ e spans, refuses e spans → refuses' e spans) : Ends image c refuses' r := by
  cases h with
  | done hscan => exact .done hscan
  | short hscan hsize hread => exact .short hscan hsize hread
  | refused hscan hrefuses => exact .refused hscan (himp _ _ hrefuses)

/-- What comes before the start only adds to the spans. -/
theorem after {c₁ : Cursor} {before : List Span} {r : Except Failure α × Cursor} (hscan : c.Scans image before c₁)
    (h : Ends image c₁ (fun e spans => refuses e (before ++ spans)) r) : Ends image c refuses r := by
  cases h with
  | done hscan' => exact .done (hscan.append hscan')
  | short hscan' hsize hread => exact .short (hscan.append hscan') hsize hread
  | refused hscan' hrefuses => exact .refused (hscan.append hscan') hrefuses

/-- A sequence ends in its first part, or in the second after the first is done. -/
theorem bind {x : Decoder α} {f : α → Decoder β} (hx : Ends image c refuses (x c))
    (hf : ∀ a c₁ spans, x c = (.ok a, c₁) → c.Scans image spans c₁ →
      Ends image c₁ (fun e rest => refuses e (spans ++ rest)) (f a c₁)) : Ends image c refuses ((x >>= f) c) := by
  generalize hrun : x c = r at hx
  cases hx with
  | done hscan =>
    rw [bind_of_ok hrun]
    exact after hscan (hf _ _ _ hrun hscan)
  | short hscan hsize hread =>
    rw [bind_of_error hrun]
    exact .short hscan hsize hread
  | refused hscan hrefuses =>
    rw [bind_of_error hrun]
    exact .refused hscan hrefuses

theorem pure (a : α) : Ends image c refuses ((Pure.pure a : Decoder α) c) :=
  .done (.refl c)

theorem times {x : Decoder α} (hx : ∀ c, Ends image c refuses (x c))
    (hmore : ∀ e before spans, refuses e spans → refuses e (before ++ spans)) (count : Nat) (c : Cursor) :
    Ends image c refuses (Attempt.times x count c) := by
  induction count generalizing c with
  | zero => exact pure []
  | succ count ih =>
    refine bind (hx c) ?_
    intro a c₁ before _ _
    refine mono (bind (ih c₁) fun rest c₂ _ _ _ => pure (a :: rest)) ?_
    intro e spans h
    exact hmore e before spans h

/-- A field is read, or some of its bytes are missing. The cursor always has room to move on: the bytes that
were read end below the last address. -/
theorem take (hspace : image.base + image.size < addressSpace) {count : Nat} (hcount : 0 < count) :
    Ends image c refuses (Decoder.take image count c) := by
  match hread : image.read c.position count with
  | .ok bytes =>
    obtain ⟨hlength, hstores⟩ := Image.read_eq_ok_iff.1 hread
    have hlast := Image.holds_of_read hread (a := c.position + count - 1) (by omega) (by omega)
    have hpast : c.position + bytes.length < addressSpace := by
      unfold Image.Holds at hlast
      omega
    rw [take_eq_ok_iff.2 ⟨hlength, ⟨hstores, hpast⟩, rfl⟩]
    have hscan : c.Scans image [⟨c.position, count⟩] (c.past count) :=
      ⟨by simp [Cursor.past], ⟨rfl, rfl⟩, by simpa using ⟨bytes, hread⟩⟩
    exact .done hscan
  | .error e =>
    have hpeek : peek image count c = (.error e, { c with reads := c.reads.push ⟨c.position, count⟩ }) := by
      rw [peek_ofImage, hread]
    rw [Decoder.take, bind_of_error hpeek]
    exact .short (.refl c) hcount hread

/-- Straight readers refuse nothing. -/
theorem straight (hspace : image.base + image.size < addressSpace) {n : Nat} {d : Source → Decoder α}
    (h : Straight n d) : Ends image c refuses (d image c) := by
  induction h generalizing c refuses with
  | pure a => exact pure a
  | position => exact .done (.refl c)
  | note e => exact .done ((Cursor.Scans.refl c).noted e)
  | take count hcount => exact take hspace hcount
  | bind _ _ hx hf => exact hx.bind fun a c₁ spans _ _ => hf a
  | weaken _ _ ih => exact ih

end Ends

namespace Wire

variable {image : Image} {c : Cursor}

/-! ## Operator headers among the reads -/

/-- The reads of an operator's own bytes. -/
def headerSpans (start : Nat) : List Span :=
  [⟨start, 1⟩, ⟨start + 1, 1⟩, ⟨start + 2, 2⟩]

/-- The bytes at the address are those of an operator with an arity. -/
def OperatorAt (image : Image) (address : Nat) : Prop :=
  ∃ op field, op.arity ≠ .unsupported ∧ image.Stores address (ownBytes (.operator op field []))

/-- An operator's header was read at the address. -/
def HeaderRead (image : Image) (spans : List Span) (address : Nat) : Prop :=
  headerSpans address <:+: spans ∧ OperatorAt image address

/-- Headers were read at all the addresses, in this order and none inside another. -/
def HeadersRead (image : Image) (spans : List Span) : List Nat → Prop
  | [] => True
  | a :: rest => ∃ before after, spans = before ++ headerSpans a ++ after ∧ OperatorAt image a ∧
    HeadersRead image after rest

theorem HeadersRead.after {spans : List Span} {headers : List Nat} (h : HeadersRead image spans headers)
    (before : List Span) : HeadersRead image (before ++ spans) headers := by
  cases headers with
  | nil => trivial
  | cons a rest =>
    obtain ⟨xs, ys, rfl, hop, hrest⟩ := h
    exact ⟨before ++ xs, ys, by simp, hop, hrest⟩

/-- Among spans without a gap, the headers do not overlap and lie between the ends. -/
theorem bounds_of_headersRead {spans : List Span} {headers : List Nat} {start stop : Nat}
    (htiles : Tiles start spans stop) (h : HeadersRead image spans headers) :
    headers.Pairwise (fun a b => a + operatorHeaderSize ≤ b) ∧
      ∀ a ∈ headers, start ≤ a ∧ a + operatorHeaderSize ≤ stop ∧ HeaderRead image spans a := by
  induction headers generalizing spans start with
  | nil => exact ⟨.nil, nofun⟩
  | cons a rest ih =>
    obtain ⟨xs, ys, rfl, hop, hrest⟩ := h
    -- The spans fall into those before the header, its own and those behind it.
    obtain ⟨past, htiles, hys⟩ := tiles_append.1 htiles
    obtain ⟨_, hxs, rfl, -, -, rfl⟩ := tiles_append.1 htiles
    obtain ⟨hapart, hbounds⟩ := ih hys hrest
    have hbefore := le_of_tiles hxs
    have hbehind := le_of_tiles hys
    refine ⟨List.pairwise_cons.2 ⟨fun b hb => (hbounds b hb).1, hapart⟩, ?_⟩
    refine List.forall_mem_cons.2 ⟨⟨hbefore, hbehind, List.infix_append xs _ ys, hop⟩, ?_⟩
    intro b hb
    obtain ⟨hfrom, hto, hinfix, hop'⟩ := hbounds b hb
    refine ⟨?_, hto, hinfix.trans (List.suffix_append _ ys).isInfix, hop'⟩
    have : a + operatorHeaderSize ≤ b := hfrom
    omega

/-! ## Descents -/

/-- A descent is refused at the end of a chain of as many operators as it has levels. -/
def Refuses (image : Image) (limit levels : Nat) (e : Failure) (spans : List Span) : Prop :=
  e = .tooDeep limit ∧ ∃ headers, headers.length = levels ∧ HeadersRead image spans headers

theorem Refuses.after {limit levels : Nat} {e : Failure} {spans : List Span} (h : Refuses image limit levels e spans)
    (before : List Span) : Refuses image limit levels e (before ++ spans) := by
  obtain ⟨rfl, headers, hlength, hread⟩ := h
  exact ⟨rfl, headers, hlength, hread.after before⟩

/-- An operator's header, in front of a chain of operators below it, makes the chain longer by one. -/
theorem Refuses.header {limit levels : Nat} {e : Failure} {spans own : List Span} {op : Operator} {field : Int16}
    {arity : Nat} {c₁ : Cursor} (hhead : head image c = (.ok (.operator op field arity), c₁))
    (hscan : c.Scans image own c₁) (h : Refuses image limit levels e spans) :
    Refuses image limit (levels + 1) e (own ++ spans) := by
  obtain ⟨hsound, hbytes, rfl⟩ := head_eq_ok_iff.1 hhead
  have hop : op.arity ≠ .unsupported := by
    rw [ne_eq, ← Arity.count_eq_none_iff]
    cases hsound with
    | operator _ _ _ harity => simp [harity]
  have hown : own = headerSpans c.position := by
    have hreads := congrArg Array.toList hscan.reads
    simpa [Cursor.pastOwn, remarks, fieldWidths, Head.node, Cursor.past, headerSpans] using hreads.symm
  obtain ⟨rfl, headers, rfl, hread⟩ := h
  exact ⟨rfl, c.position :: headers, rfl, [], spans, by rw [hown]; rfl, ⟨op, field, hop, hbytes.stores⟩, hread⟩

/-- A descent ends with a tree, at missing bytes, or below as many operators as it had levels. -/
theorem descend_ends (hspace : image.base + image.size < addressSpace) (limit levels : Nat) (c : Cursor) :
    Ends image c (Refuses image limit levels) (descend image limit levels c) := by
  induction levels generalizing c with
  | zero => exact .refused (.refl c) ⟨rfl, [], rfl, trivial⟩
  | succ levels ih =>
    have hreport {c : Cursor} {refuses : Failure → List Span → Prop} (node : Expr) (start : Nat) :
        Ends image c refuses ((do
          note (.decoded node start (limit - levels))
          return node) c) :=
      .straight hspace ((Straight.note _).bind fun _ => .pure node)
    rw [descend]
    refine (Ends.done (.refl c)).bind ?_
    intro start _ _ hstart _
    cases hstart
    refine (Ends.straight hspace straight_head).bind ?_
    intro h c₁ own hhead hscan
    cases h with
    | leaf node => exact (Ends.pure node).bind fun node _ _ _ _ => hreport node _
    | operator op field arity =>
      have hargs : Ends image c₁ (Refuses image limit levels) (times (descend image limit levels) arity c₁) :=
        .times ih (fun _ before _ h => h.after before) arity c₁
      -- Seen from `c`, a refusal among the arguments lies below one more operator.
      refine (hargs.mono fun e spans h => (h.header hhead hscan).after _).bind ?_
      intro args c₂ spans hrun _
      -- The arguments are as many as the arity asks for, so the operator is built.
      have hcombine : Expr.combine op field args = .ok (.operator op field args) := by
        have hsound := (head_eq_ok_iff.1 hhead).1
        cases hsound with
        | operator _ _ _ harity => exact Expr.combine_eq_ok_iff.2 ⟨by rw [length_of_times hrun, harity], rfl⟩
      rw [hcombine]
      exact (Ends.pure _).bind fun node _ _ _ _ => hreport node _

/-- The cursor does not run past the last address. -/
theorem decode_ne_addressOverflow (hspace : image.base + image.size < addressSpace) (limit : Nat) (c : Cursor)
    (base : Nat) (offset : Int) : (decode image limit c).1 ≠ .error (.addressOverflow base offset) := by
  have hends := descend_ends hspace limit (limit + 1) c
  rw [← decode] at hends
  generalize decode image limit c = r at hends
  intro h
  cases hends with
  | done hscan => cases h
  | short hscan hsize hread =>
    obtain ⟨rfl, -⟩ := Image.read_eq_error hread hsize
    cases h
  | refused hscan hrefuses =>
    obtain ⟨rfl, -⟩ := hrefuses
    cases h

/-- Decoding that lacks bytes stands where they are missing, everything before them being there, and has asked for
them last. -/
theorem missing_of_decode (hspace : image.base + image.size < addressSpace) {limit address size available : Nat}
    {c' : Cursor} (h : decode image limit c = (.error (.outOfBounds address size available), c')) :
    available = image.size ∧ c'.position = address ∧ c.position ≤ address ∧
      (∀ a, c.position ≤ a → a < address → image.Holds a) ∧
      (∃ a, address ≤ a ∧ a < address + size ∧ ¬ image.Holds a) ∧
      ∃ made : List Span, c'.reads = c.reads ++ (made ++ [(⟨address, size⟩ : Span)]).toArray := by
  have hends := descend_ends hspace limit (limit + 1) c
  rw [← decode, h] at hends
  cases hends with
  | @short _ spans c₁ _ hscan hsize hread =>
    obtain ⟨hmissing, hplace⟩ := Image.read_eq_error hread hsize
    cases hmissing
    exact ⟨rfl, rfl, le_of_tiles hscan.tiles, fun a => hscan.holds, hplace, spans, by simp [hscan.reads]⟩
  | refused _ hrefuses => cases hrefuses.1

/-! ## Main theorem -/

/-- In an image that ends below the last address, plain bytes among them, decoding gives a tree, or stands where
the first bytes are missing, everything before them being there, or stands behind the headers of more operators
than the limit allows, having read nothing that lies further on. -/
theorem decode_ends {image : Image} (hspace : image.base + image.size ≤ Numeral.greatestWord) (limit : Nat)
    (c : Cursor) :
    (∃ t c', decode image limit c = (.ok t, c')) ∨
      (∃ address size c', decode image limit c = (.error (.outOfBounds address size image.size), c') ∧
        c'.position = address ∧ c.position ≤ address ∧
        (∀ a, c.position ≤ a → a < address → image.Holds a) ∧
        ∃ a, address ≤ a ∧ a < address + size ∧ ¬ image.Holds a) ∨
      ∃ (c' : Cursor) (made : List Span) (headers : List Nat),
        decode image limit c = (.error (.tooDeep limit), c') ∧ c'.reads = c.reads ++ made.toArray ∧
        (∀ s ∈ made, c.position ≤ s.address ∧ s.address + s.size ≤ c'.position) ∧
        limit + 1 ≤ headers.length ∧ headers.Pairwise (fun a b => a + operatorHeaderSize ≤ b) ∧
        ∀ a ∈ headers, c.position ≤ a ∧ a + operatorHeaderSize ≤ c'.position ∧ HeaderRead image made a := by
  have hends := descend_ends (Nat.lt_succ_of_le hspace) limit (limit + 1) c
  rw [← decode] at hends
  generalize hrun : decode image limit c = r at hends
  cases hends with
  | done hscan => exact .inl ⟨_, _, rfl⟩
  | @short e spans c' size hscan hsize hread =>
    obtain ⟨rfl, hmissing⟩ := Image.read_eq_error hread hsize
    exact .inr (.inl ⟨_, _, _, rfl, rfl, le_of_tiles hscan.tiles, fun a => hscan.holds, hmissing⟩)
  | refused hscan hrefuses =>
    obtain ⟨rfl, headers, hlength, hheaders⟩ := hrefuses
    obtain ⟨hapart, hbounds⟩ := bounds_of_headersRead hscan.tiles hheaders
    exact .inr (.inr ⟨_, _, headers, rfl, hscan.reads, bounds_of_tiles hscan.tiles, Nat.le_of_eq hlength.symm,
      hapart, hbounds⟩)

/-- Under limit 1 the sample, whose tree has three levels, is refused below two operators. -/
theorem decode_ends_sample :
    (Image.ofBytes sampleBytes).base + (Image.ofBytes sampleBytes).size ≤ Numeral.greatestWord ∧
      ∃ (c' : Cursor) (made : List Span) (headers : List Nat),
        decode (Image.ofBytes sampleBytes) 1 ⟨2, #[], #[]⟩ = (.error (.tooDeep 1), c') ∧
        c'.reads = #[] ++ made.toArray ∧ (∀ s ∈ made, 2 ≤ s.address ∧ s.address + s.size ≤ c'.position) ∧
        1 + 1 ≤ headers.length ∧ headers.Pairwise (fun a b => a + operatorHeaderSize ≤ b) ∧
        ∀ a ∈ headers, 2 ≤ a ∧ a + operatorHeaderSize ≤ c'.position ∧
          HeaderRead (.ofBytes sampleBytes) made a := by
  have hspace : (Image.ofBytes sampleBytes).base + (Image.ofBytes sampleBytes).size ≤ Numeral.greatestWord := by
    decide
  have hdeep : (decode (Image.ofBytes sampleBytes) 1 ⟨2, #[], #[]⟩).1 = .error (.tooDeep 1) := by
    rw [decode_of_readable representable_sample readable_sample, depth_sample]
    rfl
  refine ⟨hspace, ?_⟩
  rcases decode_ends hspace 1 ⟨2, #[], #[]⟩ with ⟨t, c', hrun⟩ | ⟨address, size, c', hrun, -⟩ | hrefused
  · rw [hrun] at hdeep
    cases hdeep
  · rw [hrun] at hdeep
    cases hdeep
  · exact hrefused

end Wire

end Correlation
