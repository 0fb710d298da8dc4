import JsonTree.Proofs.Grammar

/-!
# Offences — what a well formed document may ask too much of

A document that has a derivation can be rejected for three reasons only: an array or object is
opened beyond the limit of nesting, an integer does not fit in 64 bits, or another number rounds to
infinity.  Each is an offence of one value of the document, and `Node.sites` are all its values, in
the order in which they begin, with the offsets at which they do.  The values of repeated keys are
among them.

* `Node.in_of_mem_sites`: a value stands at its offset.
* `Node.sites_pairwise`: values that come later begin further right, so the first offence is the
  leftmost.
* `Node.within_of_no_offence`: without an offence everything asked of the document beside its form
  is kept to.
-/

namespace JsonTree

open Ascii

mutual

/-- Words for numbers occur only where allowed. -/
def Node.Worded (allowNonFinite : Bool) : Node → Prop
  | .nonFinite _ => allowNonFinite = true
  | .array _ first more => first.Worded allowNonFinite ∧ more.Worded allowNonFinite
  | .object _ _ _ _ first more => first.Worded allowNonFinite ∧ more.Worded allowNonFinite
  | _ => True

/-- The same of the items. -/
def Items.Worded (allowNonFinite : Bool) : Items → Prop
  | .close _ => True
  | .comma _ _ item more => item.Worded allowNonFinite ∧ more.Worded allowNonFinite

/-- The same of the members. -/
def Fields.Worded (allowNonFinite : Bool) : Fields → Prop
  | .close _ => True
  | .comma _ _ _ _ _ item more => item.Worded allowNonFinite ∧ more.Worded allowNonFinite

end

/-! ### Where values stand -/

/-- A value of a document, how many arrays and objects there are around it, and the offset at which
it begins. -/
structure Site where
  node : Node
  depth : Nat
  offset : Nat

mutual

/-- All values of a value, itself first, in the order in which they begin. -/
def Node.sites (depth offset : Nat) : Node → List Site
  | .array w first more =>
    ⟨.array w first more, depth, offset⟩ ::
      (first.sites (depth + 1) (offset + (1 + w.text.length)) ++
        more.sites (depth + 1) (offset + (1 + w.text.length) + first.text.length))
  | .object w key w₁ w₂ first more =>
    ⟨.object w key w₁ w₂ first more, depth, offset⟩ ::
      (first.sites (depth + 1)
          (offset + (1 + w.text.length) + (key.text.length + w₁.text.length + 1 + w₂.text.length)) ++
        more.sites (depth + 1)
          (offset + (1 + w.text.length) + (key.text.length + w₁.text.length + 1 + w₂.text.length) +
            first.text.length))
  | node => [⟨node, depth, offset⟩]

/-- All values of the items. -/
def Items.sites (depth offset : Nat) : Items → List Site
  | .close _ => []
  | .comma w w' item more =>
    item.sites depth (offset + (w.text.length + 1 + w'.text.length)) ++
      more.sites depth (offset + (w.text.length + 1 + w'.text.length) + item.text.length)

/-- All values of the members. -/
def Fields.sites (depth offset : Nat) : Fields → List Site
  | .close _ => []
  | .comma w w' key w₁ w₂ item more =>
    item.sites depth (offset + (w.text.length + 1 + w'.text.length) +
        (key.text.length + w₁.text.length + 1 + w₂.text.length)) ++
      more.sites depth (offset + (w.text.length + 1 + w'.text.length) +
        (key.text.length + w₁.text.length + 1 + w₂.text.length) + item.text.length)

end

/-- All values of a document. -/
def Derivation.sites (d : Derivation) : List Site :=
  d.root.sites 0 d.before.text.length


/-- The value stands in a text that begins at the offset. -/
def Site.In (site : Site) (text : Bytes) (offset : Nat) : Prop :=
  ∃ front back, text = front ++ (site.node.text ++ back) ∧ site.offset = offset + front.length

namespace Site.In

variable {site : Site} {text : Bytes} {offset : Nat}

/-- A value stands in its own text. -/
theorem self (node : Node) (depth offset : Nat) : Site.In ⟨node, depth, offset⟩ node.text offset :=
  ⟨[], [], by rw [List.nil_append, List.append_nil], rfl⟩

/-- What stands in a part of a text stands in the text. -/
theorem part (front : Bytes) {n : Nat} (h : site.In text (offset + n)) (hn : n = front.length)
    (back : Bytes) : site.In (front ++ (text ++ back)) offset := by
  obtain ⟨front', back', rfl, ho⟩ := h
  refine ⟨front ++ front', back' ++ back, by simp only [List.append_assoc], ?_⟩
  rw [ho, hn, List.length_append, Nat.add_assoc]

end Site.In

mutual

/-- **A value stands at its offset.** -/
theorem Node.in_of_mem_sites {site : Site} {depth offset : Nat} :
    ∀ {node : Node}, site ∈ node.sites depth offset → site.In node.text offset
  | .array w first more, h => by
      rw [Node.sites, List.mem_cons, List.mem_append] at h
      rw [Node.text]
      rcases h with rfl | h | h
      · exact .self _ _ _
      · exact (Node.in_of_mem_sites h).part (openBracket :: w.text) (by simp [Nat.add_comm]) more.text
      · rw [Nat.add_assoc] at h
        have hin := (Items.in_of_mem_sites h).part (openBracket :: (w.text ++ first.text))
          (by simp; omega) []
        simpa using hin
  | .object w key w₁ w₂ first more, h => by
      rw [Node.sites, List.mem_cons, List.mem_append] at h
      rw [Node.text]
      rcases h with rfl | h | h
      · exact .self _ _ _
      · rw [Nat.add_assoc] at h
        have hin := (Node.in_of_mem_sites h).part
          (openBrace :: (w.text ++ (key.text ++ (w₁.text ++ colon :: w₂.text))))
          (by simp; omega) more.text
        simpa using hin
      · simp only [Nat.add_assoc] at h
        have hin := (Fields.in_of_mem_sites h).part
          (openBrace :: (w.text ++ (key.text ++ (w₁.text ++ colon :: (w₂.text ++ first.text)))))
          (by simp; omega) []
        simpa using hin
  | .null, h | .boolean _, h | .number _, h | .nonFinite _, h | .string _, h | .emptyArray _, h
  | .emptyObject _, h => by
      obtain rfl := List.mem_singleton.mp h
      exact .self _ _ _

theorem Items.in_of_mem_sites {site : Site} {depth offset : Nat} :
    ∀ {more : Items}, site ∈ more.sites depth offset → site.In more.text offset
  | .comma w w' item more, h => by
      rw [Items.sites, List.mem_append] at h
      rw [Items.text]
      rcases h with h | h
      · have hin := (Node.in_of_mem_sites h).part (w.text ++ comma :: w'.text) (by simp; omega)
          more.text
        simpa using hin
      · rw [Nat.add_assoc] at h
        have hin := (Items.in_of_mem_sites h).part (w.text ++ comma :: (w'.text ++ item.text))
          (by simp; omega) []
        simpa using hin

theorem Fields.in_of_mem_sites {site : Site} {depth offset : Nat} :
    ∀ {more : Fields}, site ∈ more.sites depth offset → site.In more.text offset
  | .comma w w' key w₁ w₂ item more, h => by
      rw [Fields.sites, List.mem_append] at h
      rw [Fields.text]
      rcases h with h | h
      · rw [Nat.add_assoc] at h
        have hin := (Node.in_of_mem_sites h).part
          (w.text ++ comma :: (w'.text ++ (key.text ++ (w₁.text ++ colon :: w₂.text))))
          (by simp; omega) more.text
        simpa using hin
      · simp only [Nat.add_assoc] at h
        have hin := (Fields.in_of_mem_sites h).part
          (w.text ++ comma :: (w'.text ++ (key.text ++ (w₁.text ++ colon :: (w₂.text ++ item.text)))))
          (by simp; omega) []
        simpa using hin

end

/-- A value of a document stands in it at its offset. -/
theorem Derivation.exists_rest_of_mem_sites {d : Derivation} {site : Site} (h : site ∈ d.sites) :
    ∃ back, d.text.drop site.offset = site.node.text ++ back := by
  obtain ⟨front, back, htext, ho⟩ := Node.in_of_mem_sites h
  refine ⟨back ++ d.after.text, ?_⟩
  have hsplit : d.text = (d.before.text ++ front) ++ (site.node.text ++ (back ++ d.after.text)) := by
    rw [Derivation.text, htext]
    simp only [List.append_assoc]
  rw [hsplit, ho, ← List.length_append, List.drop_left]

/-! ### The order of values -/

/-- No value is without bytes. -/
theorem Node.length_text_pos (node : Node) : 0 < node.text.length := by
  cases node with
  | boolean b => cases b <;> decide
  | number n =>
      obtain ⟨b, ds, hw, -⟩ := n.proper.whole.exists_cons
      rw [Node.text, NumberLiteral.text, Numeral.text_eq, hw]
      simp
  | nonFinite word => cases word <;> decide
  | null => decide
  | _ => simp [Node.text, StringLiteral.text]

/-- What stands in a text does not begin before it. -/
theorem Site.In.le {site : Site} {text : Bytes} {offset : Nat} (h : site.In text offset) :
    offset ≤ site.offset := by
  obtain ⟨front, back, -, ho⟩ := h
  omega

/-- What stands in a text begins before its end. -/
theorem Site.In.lt {site : Site} {text : Bytes} {offset : Nat} (h : site.In text offset) :
    site.offset < offset + text.length := by
  obtain ⟨front, back, rfl, ho⟩ := h
  have hpos := site.node.length_text_pos
  simp only [List.length_append]
  omega

/-- Values in one part of a text come before those in the next part. -/
theorem pairwise_parts {as bs : List Site} {text text' : Bytes} {i : Nat}
    (has : as.Pairwise (·.offset < ·.offset)) (hbs : bs.Pairwise (·.offset < ·.offset))
    (ha : ∀ a ∈ as, a.In text i) (hb : ∀ b ∈ bs, b.In text' (i + text.length)) :
    (as ++ bs).Pairwise (·.offset < ·.offset) :=
  List.pairwise_append.mpr ⟨has, hbs, fun a hma b hmb =>
    Nat.lt_of_lt_of_le (ha a hma).lt (hb b hmb).le⟩

/-- Values inside a value come after it. -/
theorem pairwise_inside {site : Site} {as bs : List Site} {text text' : Bytes} {i : Nat}
    (hi : site.offset < i) (has : as.Pairwise (·.offset < ·.offset))
    (hbs : bs.Pairwise (·.offset < ·.offset)) (ha : ∀ a ∈ as, a.In text i)
    (hb : ∀ b ∈ bs, b.In text' (i + text.length)) :
    (site :: (as ++ bs)).Pairwise (·.offset < ·.offset) := by
  refine List.pairwise_cons.mpr ⟨fun a hmem => ?_, pairwise_parts has hbs ha hb⟩
  rcases List.mem_append.mp hmem with h | h
  · exact Nat.lt_of_lt_of_le hi (ha a h).le
  · exact Nat.lt_of_lt_of_le hi (Nat.le_trans (Nat.le_add_right _ _) (hb a h).le)

mutual

/-- **Values are listed in the order in which they begin.** -/
theorem Node.sites_pairwise (depth offset : Nat) :
    ∀ node : Node, (node.sites depth offset).Pairwise (·.offset < ·.offset)
  | .array w first more => by
      rw [Node.sites]
      exact pairwise_inside (by simp only; omega) (Node.sites_pairwise _ _ first)
        (Items.sites_pairwise _ _ more) (fun _ h => Node.in_of_mem_sites h)
        fun _ h => Items.in_of_mem_sites h
  | .object w key w₁ w₂ first more => by
      rw [Node.sites]
      exact pairwise_inside (by simp only; omega) (Node.sites_pairwise _ _ first)
        (Fields.sites_pairwise _ _ more) (fun _ h => Node.in_of_mem_sites h)
        fun _ h => Fields.in_of_mem_sites h
  | .null | .boolean _ | .number _ | .nonFinite _ | .string _ | .emptyArray _ | .emptyObject _ =>
      List.pairwise_singleton _ _

theorem Items.sites_pairwise (depth offset : Nat) :
    ∀ more : Items, (more.sites depth offset).Pairwise (·.offset < ·.offset)
  | .close _ => .nil
  | .comma _ _ item more =>
      pairwise_parts (Node.sites_pairwise _ _ item) (Items.sites_pairwise _ _ more)
        (fun _ h => Node.in_of_mem_sites h) fun _ h => Items.in_of_mem_sites h

theorem Fields.sites_pairwise (depth offset : Nat) :
    ∀ more : Fields, (more.sites depth offset).Pairwise (·.offset < ·.offset)
  | .close _ => .nil
  | .comma _ _ _ _ _ item more =>
      pairwise_parts (Node.sites_pairwise _ _ item) (Fields.sites_pairwise _ _ more)
        (fun _ h => Node.in_of_mem_sites h) fun _ h => Fields.in_of_mem_sites h

end

/-! ### Offences -/

/-- What is wrong with a number, if anything. -/
noncomputable def NumberLiteral.offence? (n : NumberLiteral) : Option ErrorCode :=
  if n.numeral.isInteger then
    if Numeral.Fits n.numeral.toInt then none else some .integerTooLarge
  else if n.nearest.isFinite then none else some .numberOutOfRange

/-- What is wrong with a value that is inside as many arrays and objects as `depth` says: an array
or object is opened as the first one beyond the limit, or it is a number without a meaning. -/
noncomputable def Node.offence? (limit depth : Nat) : Node → Option ErrorCode
  | .number n => n.offence?
  | .emptyArray _ | .array _ _ _ | .emptyObject _ | .object _ _ _ _ _ _ =>
    if depth + 1 = limit + 1 then some .nestingTooDeep else none
  | _ => none

/-- What is wrong with the value at a site, and where. -/
noncomputable def Site.offence? (limit : Nat) (site : Site) : Option (ErrorCode × Nat) :=
  (site.node.offence? limit site.depth).map fun code => (code, site.offset)

/-- The first offence at the sites. -/
noncomputable def firstOffence? (limit : Nat) (sites : List Site) : Option (ErrorCode × Nat) :=
  sites.findSome? (Site.offence? limit)

/-- No offence is an offence against the form. -/
theorem Node.category_of_offence? {limit depth : Nat} {node : Node} {code : ErrorCode}
    (h : node.offence? limit depth = some code) : code.category ≠ .lexical := by
  have cases : code = .nestingTooDeep ∨ code = .integerTooLarge ∨ code = .numberOutOfRange := by
    cases node <;> simp only [Node.offence?, NumberLiteral.offence?] at h <;> grind
  rcases cases with rfl | rfl | rfl <;> decide

/-- A number that does not offend is within the bounds. -/
theorem NumberLiteral.within_of_offence?_eq_none {n : NumberLiteral} (h : n.offence? = none) :
    n.Within := by
  rw [offence?] at h
  rw [Within]
  split at h
  · next hi =>
      rw [if_pos hi]
      by_contra hfits
      rw [if_neg hfits] at h
      cases h
  · next hi =>
      rw [if_neg hi]
      by_contra hfinite
      rw [if_neg hfinite] at h
      cases h

/-- The first offence of two lists is the first one's, or else the second one's. -/
theorem firstOffence?_append (limit : Nat) (as bs : List Site) :
    firstOffence? limit (as ++ bs) = (firstOffence? limit as).or (firstOffence? limit bs) :=
  List.findSome?_append

theorem firstOffence?_singleton (limit : Nat) (site : Site) :
    firstOffence? limit [site] = site.offence? limit := by
  rw [firstOffence?, List.findSome?_singleton]

/-- An array or object offends by itself exactly when it is opened beyond the limit. -/
theorem firstOffence?_container {node : Node} {limit depth : Nat} (offset : Nat) (sites : List Site)
    (h : node.offence? limit depth = if depth + 1 = limit + 1 then some .nestingTooDeep else none) :
    firstOffence? limit (⟨node, depth, offset⟩ :: sites) =
      if depth = limit then some (.nestingTooDeep, offset) else firstOffence? limit sites := by
  rw [firstOffence?, List.findSome?_cons, Site.offence?, h]
  by_cases hd : depth = limit
  · rw [if_pos (by omega), if_pos hd]
    rfl
  · rw [if_neg (by omega), if_neg hd]
    rfl

mutual

/-- **A value without offences keeps to what is asked for**, in itself and in its nesting. -/
theorem Node.within_of_no_offence {allow : Bool} {limit depth offset : Nat} (hd : depth ≤ limit) :
    ∀ {node : Node}, node.Worded allow → firstOffence? limit (node.sites depth offset) = none →
      node.Within allow ∧ depth + node.depth ≤ limit
  | .number n, _, h => by
      change firstOffence? limit [⟨.number n, depth, offset⟩] = none at h
      rw [firstOffence?_singleton, Site.offence?, Option.map_eq_none_iff] at h
      exact ⟨n.within_of_offence?_eq_none h, hd⟩
  | .emptyArray _, _, h | .emptyObject _, _, h => by
      change firstOffence? limit [⟨_, depth, offset⟩] = none at h
      rw [firstOffence?_container _ _ rfl] at h
      refine ⟨trivial, ?_⟩
      split at h
      · cases h
      · rw [Node.depth]
        omega
  | .array _ first more, hw, h => by
      rw [Node.sites, firstOffence?_container _ _ rfl, firstOffence?_append] at h
      split at h
      · cases h
      obtain ⟨h₁, h₂⟩ := Option.or_eq_none_iff.mp h
      obtain ⟨hin, hdepth⟩ := Node.within_of_no_offence (by omega) hw.1 h₁
      obtain ⟨hin', hdepth'⟩ := Items.within_of_no_offence (by omega) hw.2 h₂
      refine ⟨⟨hin, hin'⟩, ?_⟩
      rw [Node.depth]
      omega
  | .object _ _ _ _ first more, hw, h => by
      rw [Node.sites, firstOffence?_container _ _ rfl, firstOffence?_append] at h
      split at h
      · cases h
      obtain ⟨h₁, h₂⟩ := Option.or_eq_none_iff.mp h
      obtain ⟨hin, hdepth⟩ := Node.within_of_no_offence (by omega) hw.1 h₁
      obtain ⟨hin', hdepth'⟩ := Fields.within_of_no_offence (by omega) hw.2 h₂
      refine ⟨⟨hin, hin'⟩, ?_⟩
      rw [Node.depth]
      omega
  | .nonFinite _, hw, _ => ⟨hw, hd⟩
  | .null, _, _ | .boolean _, _, _ | .string _, _, _ => ⟨trivial, hd⟩

theorem Items.within_of_no_offence {allow : Bool} {limit depth offset : Nat} (hd : depth ≤ limit) :
    ∀ {more : Items}, more.Worded allow → firstOffence? limit (more.sites depth offset) = none →
      more.Within allow ∧ depth + more.depth ≤ limit
  | .close _, _, _ => ⟨trivial, hd⟩
  | .comma _ _ item more, hw, h => by
      rw [Items.sites, firstOffence?_append] at h
      obtain ⟨h₁, h₂⟩ := Option.or_eq_none_iff.mp h
      obtain ⟨hin, hdepth⟩ := Node.within_of_no_offence hd hw.1 h₁
      obtain ⟨hin', hdepth'⟩ := Items.within_of_no_offence hd hw.2 h₂
      refine ⟨⟨hin, hin'⟩, ?_⟩
      rw [Items.depth]
      omega

theorem Fields.within_of_no_offence {allow : Bool} {limit depth offset : Nat} (hd : depth ≤ limit) :
    ∀ {more : Fields}, more.Worded allow → firstOffence? limit (more.sites depth offset) = none →
      more.Within allow ∧ depth + more.depth ≤ limit
  | .close _, _, _ => ⟨trivial, hd⟩
  | .comma _ _ _ _ _ item more, hw, h => by
      rw [Fields.sites, firstOffence?_append] at h
      obtain ⟨h₁, h₂⟩ := Option.or_eq_none_iff.mp h
      obtain ⟨hin, hdepth⟩ := Node.within_of_no_offence hd hw.1 h₁
      obtain ⟨hin', hdepth'⟩ := Fields.within_of_no_offence hd hw.2 h₂
      refine ⟨⟨hin, hin'⟩, ?_⟩
      rw [Fields.depth]
      omega

end

/-- The first offence is that of a site, and every other offence begins further right. -/
theorem exists_of_firstOffence? {limit code offset : _} {sites : List Site}
    (hs : sites.Pairwise (·.offset < ·.offset))
    (h : firstOffence? limit sites = some (code, offset)) :
    ∃ site ∈ sites, site.node.offence? limit site.depth = some code ∧ site.offset = offset ∧
      ∀ other ∈ sites, (other.node.offence? limit other.depth).isSome →
        other = site ∨ offset < other.offset := by
  obtain ⟨before, site, after, rfl, hsite, hnone⟩ := List.findSome?_eq_some_iff.mp h
  obtain ⟨code', hcode, heq⟩ := Option.map_eq_some_iff.mp hsite
  obtain ⟨rfl, rfl⟩ := Prod.mk.inj heq
  refine ⟨site, by simp, hcode, rfl, fun other hmem hoffends => ?_⟩
  rcases List.mem_append.mp hmem with hbefore | hafter
  · have hno := hnone other hbefore
    rw [Site.offence?, Option.map_eq_none_iff] at hno
    rw [hno] at hoffends
    cases hoffends
  · rcases List.mem_cons.mp hafter with rfl | hafter
    · exact .inl rfl
    · exact .inr (List.rel_of_pairwise_cons (List.pairwise_append.mp hs).2.1 hafter)

end JsonTree
