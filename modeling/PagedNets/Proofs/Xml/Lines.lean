import PagedNets.Proofs.Xml.Markup

/-!
The lines of written texts. A text can be searched for the lines that start with certain words; in a
text that was written piece by piece, these are the lines found in the pieces. Markup is written
line by line, each line starts with the name of an element, and texts bring in no lines.
-/

set_option autoImplicit false

namespace PagedNets

namespace Text

def lines (text : String) : List String :=
  (text.toList.splitOn '\n').map fun line => String.ofList (line.dropWhile (· == ' '))

def opens (words : List String) (line : String) : Bool :=
  words.any fun word => word.toList.isPrefixOf line.toList

def linesAt (words : List String) (text : String) : List String :=
  (lines text).filter (opens words)

/-- What is found in a text, whatever follows it. -/
def Yields (words : List String) (text : String) (found : List String) : Prop :=
  ∀ rest, linesAt words (text ++ rest) = found ++ linesAt words rest

def Spells {β : Type} (read : String → Option β) (text : String) (spelt : List β) : Prop :=
  ∀ rest, (lines (text ++ rest)).filterMap read = spelt ++ (lines rest).filterMap read

variable {words found more : List String} {s t : String}

theorem lines_append_line (s t : String) : lines (s ++ "\n" ++ t) = lines s ++ lines t := by
  have hsplit : (s ++ "\n" ++ t).toList = s.toList ++ '\n' :: t.toList := by simp
  rw [lines, lines, lines, hsplit, List.splitOn, List.splitOnP_append_cons _ _ (by simp),
    List.map_append]
  rfl

theorem lines_of_not_mem (h : '\n' ∉ s.toList) :
    lines s = [String.ofList (s.toList.dropWhile (· == ' '))] := by
  have hone : s.toList.splitOn '\n' = [s.toList] :=
    List.splitOnP_eq_singleton fun c hc => beq_eq_false_iff_ne.mpr fun he => h (he ▸ hc)
  rw [lines, hone]
  rfl

theorem lines_indented (blanks : Nat) (h : '\n' ∉ s.toList)
    (hs : ∀ c ∈ s.toList.head?, c ≠ ' ') :
    lines (String.ofList (List.replicate blanks ' ') ++ s) = [s] := by
  have hline : (String.ofList (List.replicate blanks ' ') ++ s).toList =
      List.replicate blanks ' ' ++ s.toList := by simp
  have hblanks : ∀ c ∈ List.replicate blanks ' ', (c == ' ') = true :=
    fun c hc => beq_iff_eq.mpr (List.eq_of_mem_replicate hc)
  have hdrop := (takeWhile_append_stop hblanks
    fun c hc => beq_eq_false_iff_ne.mpr (hs c hc)).2
  rw [lines_of_not_mem, hline, hdrop, String.ofList_toList]
  rw [hline, List.mem_append]
  rintro (hm | hm)
  · cases List.eq_of_mem_replicate hm
  · exact h hm

theorem linesAt_empty (h : ∀ w ∈ words, w.toList ≠ []) : linesAt words "" = [] := by
  have hopens : opens words "" = false := by
    refine List.any_eq_false.mpr fun w hw => ?_
    cases hchars : w.toList with
    | nil => exact absurd hchars (h w hw)
    | cons c cs => simp
  simp [linesAt, lines_of_not_mem, hopens]

namespace Spells

variable {β : Type} {read : String → Option β} {spelt others : List β}

theorem nil (read : String → Option β) : Spells read "" [] := fun rest => by simp

theorem append (h : Spells read s spelt) (ht : Spells read t others) :
    Spells read (s ++ t) (spelt ++ others) := by
  intro rest
  rw [String.append_assoc, h, ht, List.append_assoc]

theorem join {α : Type} {f : α → String} {g : α → List β} {l : List α}
    (h : ∀ x ∈ l, Spells read (f x) (g x)) :
    Spells read (String.join (l.map f)) (l.flatMap g) := by
  induction l with
  | nil => exact nil read
  | cons x l ih =>
    rw [List.map_cons, String.join_cons, List.flatMap_cons]
    exact (h x List.mem_cons_self).append (ih fun y hy => h y (List.mem_cons_of_mem _ hy))

theorem line (read : String → Option β) (s : String) :
    Spells read (s ++ "\n") ((lines s).filterMap read) := by
  intro rest
  rw [lines_append_line, List.filterMap_append]

theorem indented (read : String → Option β) (blanks : Nat) (h : '\n' ∉ s.toList)
    (hs : ∀ c ∈ s.toList.head?, c ≠ ' ') :
    Spells read (String.ofList (List.replicate blanks ' ') ++ s ++ "\n")
      ([s].filterMap read) := by
  have hline := line read (String.ofList (List.replicate blanks ' ') ++ s)
  rwa [lines_indented blanks h hs] at hline

end Spells

namespace Yields

theorem iff_spells : Yields words s found ↔ Spells (Option.guard (opens words)) s found := by
  simp only [Yields, Spells, linesAt, List.filterMap_eq_filter]

theorem nil (words : List String) : Yields words "" [] := iff_spells.mpr (.nil _)

theorem append (h : Yields words s found) (ht : Yields words t more) :
    Yields words (s ++ t) (found ++ more) :=
  iff_spells.mpr ((iff_spells.mp h).append (iff_spells.mp ht))

theorem join {α : Type} {f : α → String} {g : α → List String} {l : List α}
    (h : ∀ x ∈ l, Yields words (f x) (g x)) :
    Yields words (String.join (l.map f)) (l.flatMap g) :=
  iff_spells.mpr (.join fun x hx => iff_spells.mp (h x hx))

theorem line (words : List String) (s : String) : Yields words (s ++ "\n") (linesAt words s) := by
  have hline := Spells.line (Option.guard (opens words)) s
  rw [List.filterMap_eq_filter] at hline
  exact iff_spells.mpr hline

theorem indented (words : List String) (blanks : Nat) (h : '\n' ∉ s.toList)
    (hs : ∀ c ∈ s.toList.head?, c ≠ ' ') :
    Yields words (String.ofList (List.replicate blanks ' ') ++ s ++ "\n")
      ([s].filter (opens words)) := by
  have hline := Spells.indented (Option.guard (opens words)) blanks h hs
  rw [List.filterMap_eq_filter] at hline
  exact iff_spells.mpr hline

theorem linesAt_eq (h : Yields words s found) (hw : ∀ w ∈ words, w.toList ≠ []) :
    linesAt words s = found := by
  have hs := h ""
  rwa [String.append_empty, linesAt_empty hw, List.append_nil] at hs

end Yields

end Text

namespace Xml

def openLine (tag : String) (attributes : List (String × String)) : String :=
  "<" ++ tag ++ attributesText attributes ++ ">"

def closeLine (tag : String) : String := "</" ++ tag ++ ">"

section

variable (names : List String)

def NamedIn (tag : String) (attributes : List (String × String)) : Prop :=
  tag ∈ names ∧ ∀ a ∈ attributes, a.1 ∈ names

mutual

def Inline.Within : Inline → Prop
  | .text _ => True
  | .empty tag attributes => NamedIn names tag attributes
  | .element tag attributes content => NamedIn names tag attributes ∧ Inline.AllWithin content

def Inline.AllWithin : List Inline → Prop
  | [] => True
  | i :: is => Inline.Within i ∧ Inline.AllWithin is

end

mutual

/-- All names in markup are from the list, and no line is mere text. -/
def Markup.Within : Markup → Prop
  | .line content => content.Within names ∧ content.isText = false
  | .block tag attributes parts => NamedIn names tag attributes ∧ Markup.AllWithin parts

def Markup.AllWithin : List Markup → Prop
  | [] => True
  | m :: ms => Markup.Within m ∧ Markup.AllWithin ms

end

end

def firstWord (line : String) : String :=
  String.ofList ((line.toList.dropWhile fun c => !isLetter c).takeWhile isLetter)

section

variable {names words : List String} {tag : String} {attributes : List (String × String)}

theorem Markup.allWithin_iff {ms : List Markup} :
    AllWithin names ms ↔ ∀ m ∈ ms, m.Within names := by
  induction ms with
  | nil => simp [AllWithin]
  | cons m ms ih => simp [AllWithin, ih]

theorem firstWord_eq {line : String} (marks rest : List Char) (h : IsWord tag)
    (hline : line.toList = marks ++ (tag.toList ++ rest))
    (hmarks : marks.any isLetter = false) (hrest : rest.head?.any isLetter = false) :
    firstWord line = tag := by
  have hstart : ∀ c ∈ (tag.toList ++ rest).head?, (!isLetter c) = false := by
    intro c hc
    cases htag : tag.toList with
    | nil => exact absurd htag h.1
    | cons x xs =>
      rw [htag] at hc
      cases hc
      rw [h.2 c (by rw [htag]; exact List.mem_cons_self)]
      rfl
  have hskip : ∀ c ∈ marks, (!isLetter c) = true := fun c hc => by
    simpa using List.any_eq_false.mp hmarks c hc
  have hstop : ∀ c ∈ rest.head?, isLetter c = false := fun c hc => by
    rwa [Option.mem_def.mp hc] at hrest
  have hdrop := (takeWhile_append_stop hskip hstart).2
  rw [firstWord, hline, hdrop, (takeWhile_append_stop h.2 hstop).1, String.ofList_toList]

structure IsTagLine (names : List String) (line : String) : Prop where
  whole : '\n' ∉ line.toList
  marked : line.toList.head? = some '<'
  named : firstWord line ∈ names

section

variable (hn : ∀ w ∈ names, IsWord w)
include hn

theorem newline_not_mem_name (h : tag ∈ names) : '\n' ∉ tag.toList :=
  fun hm => (hn tag h).ne hm (by decide) rfl

theorem newline_not_mem_attributesText (h : ∀ a ∈ attributes, a.1 ∈ names) :
    '\n' ∉ (attributesText attributes).toList := by
  rw [toList_attributesText, attributesChars, List.mem_flatMap]
  rintro ⟨a, ha, hm⟩
  have hname := newline_not_mem_name hn (h a ha)
  have hvalue : '\n' ∉ escapeChars a.2.toList := not_mem_escapeChars (by decide) (by decide)
  simp [attributeChars, hname, hvalue] at hm

/-- An element starts with a line of its own kind, wherever the line goes on from the tag. -/
theorem isTagLine_of_tag {line : String} (h : NamedIn names tag attributes) (rest : List Char)
    (hline : line.toList = '<' :: (tag.toList ++ ((attributesText attributes).toList ++ rest)))
    (hrest : '\n' ∉ rest) (hhead : rest.head?.any isLetter = false) :
    IsTagLine names line := by
  have hnext : ((attributesText attributes).toList ++ rest).head?.any isLetter = false := by
    rw [toList_attributesText]
    cases attributes with
    | nil => exact hhead
    | cons a attributes => rfl
  have hname := newline_not_mem_name hn h.1
  have hattributes := newline_not_mem_attributesText hn h.2
  refine ⟨?_, by rw [hline]; rfl, ?_⟩
  · simp [hline, hname, hattributes, hrest]
  · rw [firstWord_eq ['<'] _ (hn tag h.1) hline rfl hnext]
    exact h.1

end

mutual

theorem Inline.newline_not_mem (hn : ∀ w ∈ names, IsWord w) (i : Inline) (h : i.Within names) :
    '\n' ∉ i.render.toList := by
  cases i with
  | text content =>
    rw [render, escape, String.toList_ofList]
    exact not_mem_escapeChars (by decide) (by decide)
  | empty tag attributes =>
    rw [Within] at h
    have hname := newline_not_mem_name hn h.1
    have hattributes := newline_not_mem_attributesText hn h.2
    simp [render, hname, hattributes]
  | element tag attributes content =>
    rw [Within] at h
    have hname := newline_not_mem_name hn h.1.1
    have hattributes := newline_not_mem_attributesText hn h.1.2
    have hcontent := Inline.newline_not_mem_all hn content h.2
    simp [render, hname, hattributes, hcontent]

theorem Inline.newline_not_mem_all (hn : ∀ w ∈ names, IsWord w) (is : List Inline)
    (h : Inline.AllWithin names is) : '\n' ∉ (Inline.renderAll is).toList := by
  cases is with
  | nil => simp [renderAll]
  | cons i is =>
    rw [AllWithin] at h
    have hi := Inline.newline_not_mem hn i h.1
    have his := Inline.newline_not_mem_all hn is h.2
    simp [renderAll, hi, his]

end

section

variable (hn : ∀ w ∈ names, IsWord w)
include hn

theorem Inline.isTagLine {i : Inline} (h : i.Within names) (ht : i.isText = false) :
    IsTagLine names i.render := by
  cases i with
  | text content => cases ht
  | empty tag attributes =>
    rw [Within] at h
    exact isTagLine_of_tag hn h ['/', '>'] (by simp [render]) (by decide) rfl
  | element tag attributes content =>
    rw [Within] at h
    have hname := newline_not_mem_name hn h.1.1
    have hcontent := Inline.newline_not_mem_all hn content h.2
    refine isTagLine_of_tag hn h.1 ('>' :: ((renderAll content).toList ++ closeChars tag)) ?_ ?_ rfl
    · simp [render, closeChars]
    · simp [hcontent, closeChars, hname]

theorem isTagLine_openLine (h : NamedIn names tag attributes) :
    IsTagLine names (openLine tag attributes) :=
  isTagLine_of_tag hn h ['>'] (by simp [openLine]) (by decide) rfl

theorem isTagLine_closeLine (h : tag ∈ names) : IsTagLine names (closeLine tag) := by
  have hline : (closeLine tag).toList = ['<', '/'] ++ (tag.toList ++ ['>']) := by simp [closeLine]
  have hname := newline_not_mem_name hn h
  refine ⟨by simp [hline, hname], by rw [hline]; rfl, ?_⟩
  rw [firstWord_eq _ _ (hn tag h) hline rfl rfl]
  exact h

end

theorem IsTagLine.yields {line : String} (h : IsTagLine names line) (words : List String)
    (depth : Nat) :
    Text.Yields words (indent depth ++ line ++ "\n") ([line].filter (Text.opens words)) := by
  refine .indented words (2 * depth) h.whole fun c hc => ?_
  rw [h.marked] at hc
  cases hc
  decide

theorem Markup.yields_block (hn : ∀ w ∈ names, IsWord w) (h : NamedIn names tag attributes)
    {words found : List String} {parts : List Markup} {depth : Nat}
    (hparts : Text.Yields words (Markup.renderAll (depth + 1) parts) found) :
    Text.Yields words (render depth (.block tag attributes parts))
      ([openLine tag attributes].filter (Text.opens words) ++ found ++
        [closeLine tag].filter (Text.opens words)) := by
  have hrender : render depth (.block tag attributes parts) =
      indent depth ++ openLine tag attributes ++ "\n" ++ renderAll (depth + 1) parts ++
        (indent depth ++ closeLine tag ++ "\n") :=
    String.toList_inj.mp (by simp [render, openLine, closeLine])
  rw [hrender]
  exact (((isTagLine_openLine hn h).yields words depth).append hparts).append
    ((isTagLine_closeLine hn h.1).yields words depth)

def Misses (words names : List String) : Prop :=
  ∀ line, IsTagLine names line → Text.opens words line = false

theorem Misses.filter_eq_nil (hm : Misses words names) {line : String}
    (h : IsTagLine names line) : [line].filter (Text.opens words) = [] := by
  simp [hm line h]

mutual

theorem Markup.yields_nil (hn : ∀ w ∈ names, IsWord w) (hm : Misses words names) (m : Markup)
    (h : m.Within names) (depth : Nat) : Text.Yields words (m.render depth) [] := by
  cases m with
  | line content =>
    rw [Within] at h
    have hline := Inline.isTagLine hn h.1 h.2
    have hyields := hline.yields words depth
    rwa [hm.filter_eq_nil hline] at hyields
  | block tag attributes parts =>
    rw [Within] at h
    have hyields := yields_block hn h.1 (Markup.yields_nil_all hn hm parts h.2 (depth + 1))
    rwa [hm.filter_eq_nil (isTagLine_openLine hn h.1),
      hm.filter_eq_nil (isTagLine_closeLine hn h.1.1)] at hyields

theorem Markup.yields_nil_all (hn : ∀ w ∈ names, IsWord w) (hm : Misses words names)
    (ms : List Markup) (h : Markup.AllWithin names ms) (depth : Nat) :
    Text.Yields words (Markup.renderAll depth ms) [] := by
  cases ms with
  | nil => exact .nil words
  | cons m ms =>
    rw [AllWithin] at h
    rw [renderAll]
    exact (Markup.yields_nil hn hm m h.1 depth).append (Markup.yields_nil_all hn hm ms h.2 depth)

end

theorem Markup.renderAll_eq_join (ms : List Markup) (depth : Nat) :
    renderAll depth ms = String.join (ms.map (render depth)) := by
  induction ms with
  | nil => rfl
  | cons m ms ih => rw [renderAll, ih, List.map_cons, String.join_cons]

theorem Markup.renderAll_append (ms ns : List Markup) (depth : Nat) :
    renderAll depth (ms ++ ns) = renderAll depth ms ++ renderAll depth ns := by
  simp only [renderAll_eq_join, List.map_append, String.join_append]

theorem Markup.yields_map {α : Type} {f : α → Markup} {g : α → List String} {l : List α}
    {depth : Nat} (h : ∀ x ∈ l, Text.Yields words ((f x).render depth) (g x)) :
    Text.Yields words (renderAll depth (l.map f)) (l.flatMap g) := by
  rw [renderAll_eq_join, List.map_map]
  exact .join h

end

end Xml

end PagedNets
