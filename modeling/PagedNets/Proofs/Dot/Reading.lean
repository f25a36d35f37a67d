import PagedNets.Proofs.Dot.Clusters
import PagedNets.Proofs.Listwise

/-!
Reading a picture back. A text between double quotes ends where it should, whatever characters it
has, and no line begins inside it. So each line is what it looks like, and from the lines one finds
the pages as they are nested, and the nodes and arcs on each.
-/

set_option autoImplicit false

namespace PagedNets.Dot

open Text (Spells)

inductive Picture where
  | page (id : ObjectId) (nodes : List (ObjectId × Kind))
      (arcs : List (ObjectId × ObjectId × ArcKind)) (nested : List Picture)

/-- What a line says. Other lines are about how the picture looks. -/
inductive Mark where
  | opened (page : ObjectId)
  | node (id : ObjectId) (kind : Kind)
  | arc (source target : ObjectId) (kind : ArcKind)
  | closed
  deriving DecidableEq, Repr

section Lines

def unescape (c : Char) : Char := if c = 'n' then '\n' else c

def readLabel : List Char → Option (List Char × List Char)
  | [] => none
  | '"' :: rest => some ([], rest)
  | '\\' :: [] => none
  | '\\' :: c :: rest => (readLabel rest).map fun r => (unescape c :: r.1, r.2)
  | c :: rest => (readLabel rest).map fun r => (c :: r.1, r.2)

def readQuote : List Char → Option (String × List Char)
  | '"' :: rest => (readLabel rest).map fun r => (String.ofList r.1, r.2)
  | _ => none

def kindOf (rest : List Char) : Kind :=
  if ", shape=circle".toList.isPrefixOf rest then .place else .transition

def nodeMark? (id : String) (rest : List Char) : Option Mark := do
  let rest ← rest.dropPrefix? " [label=".toList
  let (_, rest) ← readQuote rest
  return .node ⟨id⟩ (kindOf rest)

def arcMark? (source : String) (rest : List Char) : Option Mark := do
  let rest ← rest.dropPrefix? " -> ".toList
  let (target, rest) ← readQuote rest
  return .arc ⟨source⟩ ⟨target⟩ (if rest == ";".toList then .normal else .read)

def openedMark? (line : List Char) : Option Mark := do
  let rest ← line.dropPrefix? "subgraph ".toList
  let (name, _) ← readQuote rest
  let id ← name.toList.dropPrefix? "cluster_".toList
  return .opened ⟨String.ofList id⟩

def mark? (line : String) : Option Mark :=
  if line = "\x7d" then some .closed
  else
    match readQuote line.toList with
    | some (text, rest) => (nodeMark? text rest).or (arcMark? text rest)
    | none => openedMark? line.toList

theorem readLabel_label (s rest : List Char) :
    readLabel (s.flatMap Text.labelChar ++ '"' :: rest) = some (s, rest) := by
  induction s with
  | nil => simp [readLabel]
  | cons c s ih =>
    rw [List.flatMap_cons, List.append_assoc]
    by_cases hquote : c = '"'
    · subst hquote
      simp [Text.labelChar, readLabel, ih, unescape]
    by_cases hslash : c = '\\'
    · subst hslash
      simp [Text.labelChar, readLabel, ih, unescape]
    by_cases hline : c = '\n'
    · subst hline
      simp [Text.labelChar, readLabel, ih, unescape]
    simp [Text.labelChar, hquote, hslash, hline, readLabel, ih]

theorem readQuote_quote (s : String) (rest : List Char) :
    readQuote ((quote s).toList ++ rest) = some (s, rest) := by
  have hquote : (quote s).toList ++ rest =
      '"' :: (s.toList.flatMap Text.labelChar ++ '"' :: rest) := by
    simp [quote, Text.escapeLabel]
  rw [hquote, readQuote, readLabel_label, Option.map_some, String.ofList_toList]

theorem dropPrefix?_append (l rest : List Char) : (l ++ rest).dropPrefix? l = some rest :=
  List.dropPrefix?_append_of_beq rest (beq_self_eq_true l)

theorem ne_closing {line : String} {c : Char} (hhead : line.toList.head? = some c)
    (hc : c ≠ '\x7d') : line ≠ "\x7d" := by
  rintro rfl
  exact hc (Option.some.inj hhead).symm

theorem mark?_clusterLine (i : ObjectId) : mark? (clusterLine i) = some (.opened i) := by
  have hline : (clusterLine i).toList =
      "subgraph ".toList ++ ((quote ("cluster_" ++ i.text)).toList ++ " \x7b".toList) := by
    simp [clusterLine]
  have hend : clusterLine i ≠ "\x7d" := ne_closing (c := 's') (by simp [clusterLine]) (by decide)
  have hmark : openedMark? (clusterLine i).toList = some (.opened i) := by
    rw [hline]
    simp only [openedMark?, dropPrefix?_append, Option.bind_eq_bind, Option.bind_some,
      readQuote_quote, String.toList_append, String.ofList_toList, Option.pure_def]
  have hquote : readQuote (clusterLine i).toList = none := by
    simp [clusterLine, readQuote]
  rw [mark?, if_neg hend, hquote, hmark]

theorem mark?_quote (text tail : String) : mark? (quote text ++ tail) =
    (nodeMark? text tail.toList).or (arcMark? text tail.toList) := by
  have hend : quote text ++ tail ≠ "\x7d" := ne_closing (head?_quote text tail) (by decide)
  rw [mark?, if_neg hend, String.toList_append, readQuote_quote]

theorem nodeMark?_label (id label tail : String) :
    nodeMark? id (" [label=" ++ (quote label ++ tail)).toList =
      some (.node ⟨id⟩ (kindOf tail.toList)) := by
  simp only [nodeMark?, String.toList_append, dropPrefix?_append, Option.bind_eq_bind,
    Option.bind_some, readQuote_quote, Option.pure_def]

theorem arcMark?_target (source target tail : String) :
    arcMark? source (" -> " ++ (quote target ++ tail)).toList = some (.arc ⟨source⟩ ⟨target⟩
      (if tail.toList == ";".toList then .normal else .read)) := by
  simp only [arcMark?, String.toList_append, dropPrefix?_append, Option.bind_eq_bind,
    Option.bind_some, readQuote_quote, Option.pure_def]

theorem nodeMark?_arrow (source tail : String) :
    nodeMark? source (" -> " ++ tail).toList = none := by
  have harrow : (" -> " ++ tail).toList = ' ' :: '-' :: ("> ".toList ++ tail.toList) := by simp
  have hlabel : " [label=".toList = ' ' :: '[' :: "label=".toList := by simp
  have hnone : (" -> " ++ tail).toList.dropPrefix? " [label=".toList = none := by
    rw [harrow, hlabel, List.dropPrefix?, if_pos (by decide), List.dropPrefix?,
      if_neg (by decide)]
  simp only [nodeMark?, hnone, Option.bind_eq_bind, Option.bind_none]

/-- A line that begins with neither a quote, an `s` nor a closing brace says nothing. -/
theorem mark?_eq_none {line : String} {c : Char} (hhead : line.toList.head? = some c)
    (hc : c ≠ '"' ∧ c ≠ 's' ∧ c ≠ '\x7d') : mark? line = none := by
  obtain ⟨hquote, hs, hbrace⟩ := hc
  have hend := ne_closing hhead hbrace
  cases hchars : line.toList with
  | nil => rw [hchars] at hhead; cases hhead
  | cons x rest =>
    rw [hchars] at hhead
    obtain rfl := Option.some.inj hhead
    have hnone : readQuote (x :: rest) = none := by simp [readQuote, hquote]
    rw [mark?, if_neg hend, hchars, hnone]
    simp [openedMark?, List.dropPrefix?, hs]

end Lines

section Pages

def marksIn (text : String) : List Mark := (Text.lines text).filterMap mark?

def nodeMark (n : ObjectId × Kind) : Mark := .node n.1 n.2

def arcMark (a : ObjectId × ObjectId × ArcKind) : Mark := .arc a.1 a.2.1 a.2.2

mutual

def Picture.marks : Picture → List Mark
  | .page id nodes arcs nested =>
    .opened id :: (nodes.map nodeMark ++ (arcs.map arcMark ++ (marksOf nested ++ [.closed])))

def Picture.marksOf : List Picture → List Mark
  | [] => []
  | picture :: pictures => picture.marks ++ marksOf pictures

end

/-- What has been found out about a page before it is clear which page it is. -/
structure Sheet where
  nodes : List (ObjectId × Kind) := []
  arcs : List (ObjectId × ObjectId × ArcKind) := []
  nested : List Picture := []

/-- Marks are read from the last one to the first. A sheet is begun for each page that ends, and
goes to the page around it when it is found to be opened. -/
def enter : Mark → List Sheet → List Sheet
  | .closed, sheets => {} :: sheets
  | .node id kind, sheet :: sheets =>
    { sheet with nodes := (id, kind) :: sheet.nodes } :: sheets
  | .arc source target kind, sheet :: sheets =>
    { sheet with arcs := (source, target, kind) :: sheet.arcs } :: sheets
  | .opened id, sheet :: outer :: sheets =>
    { outer with nested := .page id sheet.nodes sheet.arcs sheet.nested :: outer.nested } :: sheets
  | _, sheets => sheets

/-- The pages that a picture shows. The direction is written as it stands, so what its lines look
like is left out. -/
def readPictures (settings : Settings) (text : String) : Option (List Picture) :=
  match ((marksIn text).drop (marksIn (directionLine settings)).length).foldr enter [] with
  | [sheet] => some sheet.nested
  | _ => none

variable (sheet : Sheet) (sheets : List Sheet)

theorem foldr_nodes (nodes : List (ObjectId × Kind)) :
    (nodes.map nodeMark).foldr enter (sheet :: sheets) =
      { sheet with nodes := nodes ++ sheet.nodes } :: sheets := by
  induction nodes with
  | nil => rfl
  | cons n nodes ih =>
    rw [List.map_cons, List.foldr_cons, ih]
    rfl

theorem foldr_arcs (arcs : List (ObjectId × ObjectId × ArcKind)) :
    (arcs.map arcMark).foldr enter (sheet :: sheets) =
      { sheet with arcs := arcs ++ sheet.arcs } :: sheets := by
  induction arcs with
  | nil => rfl
  | cons a arcs ih =>
    rw [List.map_cons, List.foldr_cons, ih]
    rfl

mutual

theorem foldr_marks (picture : Picture) (sheet : Sheet) (sheets : List Sheet) :
    picture.marks.foldr enter (sheet :: sheets) =
      { sheet with nested := picture :: sheet.nested } :: sheets := by
  cases picture with
  | page id nodes arcs nested =>
    -- From the end: the sheet is begun, filled with the nested pages, arcs and nodes, and goes on.
    rw [Picture.marks, List.foldr_cons, List.foldr_append, List.foldr_append, List.foldr_append,
      List.foldr_cons, List.foldr_nil, enter, foldr_marksOf nested, foldr_arcs, foldr_nodes]
    simp [enter]

theorem foldr_marksOf (pictures : List Picture) (sheet : Sheet) (sheets : List Sheet) :
    (Picture.marksOf pictures).foldr enter (sheet :: sheets) =
      { sheet with nested := pictures ++ sheet.nested } :: sheets := by
  cases pictures with
  | nil => rfl
  | cons picture pictures =>
    rw [Picture.marksOf, List.foldr_append, foldr_marksOf pictures, foldr_marks picture]
    rfl

end

end Pages

section Documents

variable {d : Document} {keys : List ObjectId} {trees : List PageTree} {pictures : List Picture}

def ShowsNode (d : Document) (key : ObjectId) (n : ObjectId × Kind) : Prop :=
  n.1 = key ∧ n.2.isNode = true ∧ ∃ o, d.object? key = some o ∧ o.kind = n.2

def ShowsArc (d : Document) (key : ObjectId) (a : ObjectId × ObjectId × ArcKind) : Prop :=
  ∃ arc, d.arc? key = some arc ∧ a = (arc.source, arc.target, arc.kind)

/-- The pictures are those of the pages under the keys. They show all that these pages list, in the
order of the tables. -/
inductive Shows (d : Document) : List ObjectId → List Picture → Prop
  | nil : Shows d [] []
  | page {key : ObjectId} {rest : List ObjectId} {page : Page} {nodes : List (ObjectId × Kind)}
      {arcs : List (ObjectId × ObjectId × ArcKind)} {nested pictures : List Picture}
      (found : d.page? key = some page) (points : List.Forall₂ (ShowsNode d) page.nodes.keys nodes)
      (lines : List.Forall₂ (ShowsArc d) page.arcs.keys arcs) (inner : Shows d page.pages nested)
      (after : Shows d rest pictures) :
      Shows d (key :: rest) (.page key nodes arcs nested :: pictures)

theorem Shows.exists_of_grown (hd : d.Contained) (h : d.Grown keys trees) :
    ∃ pictures, Shows d keys pictures := by
  induction h with
  | nil => exact ⟨[], .nil⟩
  | @page key rest nested trees page found _ _ inner after =>
    obtain ⟨nested, hnested⟩ := inner
    obtain ⟨pictures, hpictures⟩ := after
    have hnodes : ∀ i ∈ page.nodes.keys, ∃ n, ShowsNode d i n := by
      intro i hi
      obtain ⟨o, ho, hk, -⟩ := ((hd.nodes key page found).2 i).mp hi
      exact ⟨(i, o.kind), rfl, hk, o, ho, rfl⟩
    have harcs : ∀ i ∈ page.arcs.keys, ∃ a, ShowsArc d i a := by
      intro i hi
      obtain ⟨arc, ha, -⟩ := ((hd.arcs key page found).2 i).mp hi
      exact ⟨_, arc, ha, rfl⟩
    obtain ⟨nodes, hnodes⟩ := exists_forall₂ hnodes
    obtain ⟨arcs, harcs⟩ := exists_forall₂ harcs
    exact ⟨_, .page found hnodes harcs hnested hpictures⟩

theorem ShowsNode.unique : Relator.RightUnique (ShowsNode d) := by
  rintro key ⟨i, kind⟩ ⟨j, other⟩ ⟨rfl, -, o, ho, rfl⟩ ⟨rfl, -, o', ho', rfl⟩
  rw [Option.some.inj (ho.symm.trans ho')]

theorem ShowsArc.unique : Relator.RightUnique (ShowsArc d) := by
  rintro key a b ⟨arc, harc, rfl⟩ ⟨arc', harc', rfl⟩
  rw [Option.some.inj (harc.symm.trans harc')]

theorem Shows.unique {others : List Picture} (h : Shows d keys pictures)
    (ho : Shows d keys others) : others = pictures := by
  induction h generalizing others with
  | nil => cases ho; rfl
  | page found points lines _ _ inner after =>
    cases ho with
    | page found' points' lines' inner' after' =>
      obtain rfl := Option.some.inj (found.symm.trans found')
      rw [List.right_unique_forall₂' ShowsNode.unique points' points,
        List.right_unique_forall₂' ShowsArc.unique lines' lines, inner inner', after after']

section Spelling

variable (settings : Settings) (depth : Nat)

theorem spells_line (text : String) (h : '\n' ∉ text.toList)
    (hs : ∀ c ∈ text.toList.head?, c ≠ ' ') :
    Spells mark? (line depth text) ([text].filterMap mark?) :=
  .indented mark? (4 * depth) h hs

theorem spells_quoted (text tail : String) (h : '\n' ∉ tail.toList) :
    Spells mark? (line depth (quote text ++ tail))
      ((nodeMark? text tail.toList).or (arcMark? text tail.toList)).toList := by
  have hline := spells_line depth (quote text ++ tail) (by simp [newline_not_mem_quote, h])
    (by rw [head?_quote]; simp)
  rw [← mark?_quote]
  cases hmark : mark? (quote text ++ tail) with
  | none => simpa [hmark] using hline
  | some mark => simpa [hmark] using hline

theorem spells_nodeLine (id : ObjectId) (label : String) (kind : Kind) {shape fill : String}
    (hs : '\n' ∉ shape.toList) (hf : '\n' ∉ fill.toList)
    (hkind : kindOf (", shape=" ++ (shape ++
      (", style=filled, fillcolor=\"" ++ (fill ++ "\"];")))).toList = kind) :
    Spells mark? (nodeLine depth id label shape fill) [.node id kind] := by
  have hline := spells_quoted depth id.text (" [label=" ++ (quote label ++ (", shape=" ++
    (shape ++ (", style=filled, fillcolor=\"" ++ (fill ++ "\"];"))))))
    (by simp [newline_not_mem_quote, hs, hf])
  rw [nodeMark?_label, hkind] at hline
  simp only [nodeLine, String.append_assoc]
  exact hline

theorem spells_objectLine {o : Object} (h : o.kind.isNode = true) :
    Spells mark? (objectLine settings depth o) [.node o.id o.kind] := by
  cases o with
  | place p =>
    exact spells_nodeLine depth p.id _ .place (by decide) (by decide) (by decide)
  | transition t =>
    exact spells_nodeLine depth t.id _ .transition (by decide) (by decide) (by decide)
  | _ => cases h

theorem spells_arrow (source target tail : String) (h : '\n' ∉ tail.toList) :
    Spells mark? (line depth (quote source ++ " -> " ++ quote target ++ tail))
      [.arc ⟨source⟩ ⟨target⟩ (if tail.toList == ";".toList then .normal else .read)] := by
  have hline := spells_quoted depth source (" -> " ++ (quote target ++ tail))
    (by simp [newline_not_mem_quote, h])
  rw [nodeMark?_arrow, arcMark?_target] at hline
  simp only [String.append_assoc]
  exact hline

theorem spells_arcLine (a : Arc) :
    Spells mark? (arcLine depth a) [.arc a.source a.target a.kind] := by
  unfold arcLine
  split
  next hkind =>
    rw [hkind]
    exact spells_arrow depth a.source.text a.target.text ";" (by decide)
  next hkind =>
    rw [hkind]
    exact spells_arrow depth a.source.text a.target.text " [dir=both];" (by decide)

theorem spells_line_nil {text : String} {c : Char} (h : '\n' ∉ text.toList)
    (hhead : text.toList.head? = some c) (hc : c ≠ ' ' ∧ c ≠ '"' ∧ c ≠ 's' ∧ c ≠ '\x7d') :
    Spells mark? (line depth text) [] := by
  have hline := spells_line depth text h fun x hx => by
    rw [hhead] at hx
    cases hx
    exact hc.1
  simpa [mark?_eq_none hhead hc.2] using hline

theorem spells_join {α β : Type} {R : α → β → Prop} {f : α → String} {mark : β → Mark}
    {as : List α} {bs : List β} (h : List.Forall₂ R as bs)
    (hf : ∀ a b, R a b → Spells mark? (f a) [mark b]) :
    Spells mark? (String.join (as.map f)) (bs.map mark) := by
  induction h with
  | nil => exact .nil mark?
  | cons hab _ ih =>
    rw [List.map_cons, String.join_cons]
    exact (hf _ _ hab).append ih

theorem spells_pageLines (hd : d.Contained) {page : Page} {nodes : List (ObjectId × Kind)}
    {arcs : List (ObjectId × ObjectId × ArcKind)}
    (hnodes : List.Forall₂ (ShowsNode d) page.nodes.keys nodes)
    (harcs : List.Forall₂ (ShowsArc d) page.arcs.keys arcs) :
    Spells mark? (pageLines d settings depth page) (nodes.map nodeMark ++ arcs.map arcMark) := by
  have hlabel : Spells mark?
      (line (depth + 1) ("label=" ++ quote (title page.name page.id) ++ ";")) [] :=
    spells_line_nil (c := 'l') (depth + 1) (by simp [newline_not_mem_quote]) (by simp) (by decide)
  refine (hlabel.append (spells_join hnodes fun key n hn => ?_)).append
    (spells_join harcs fun key a ha => ?_)
  · obtain ⟨rfl, hk, o, ho, hkind⟩ := hn
    rw [ho, Option.map_some, Option.getD_some, nodeMark, ← hkind, ← hd.stored _ o ho]
    exact spells_objectLine settings (depth + 1) (hkind ▸ hk)
  · obtain ⟨arc, harc, rfl⟩ := ha
    rw [harc]
    exact spells_arcLine (depth + 1) arc

end Spelling

theorem spells_closing (depth : Nat) : Spells mark? (line depth "\x7d") [.closed] := by
  have hline := spells_line depth "\x7d" (by simp) (by simp)
  have hclosed : mark? "\x7d" = some .closed := if_pos rfl
  rwa [List.filterMap_cons_some hclosed] at hline

theorem spells_clusters (hd : d.Contained) (hgrown : d.Grown keys trees)
    (h : Shows d keys pictures) (settings : Settings) (depth : Nat) :
    Spells mark? (clusters d settings depth trees) (Picture.marksOf pictures) := by
  induction hgrown generalizing pictures depth with
  | nil =>
    cases h
    exact .nil mark?
  | @page key rest nested trees page found _ _ inner after =>
    cases h with
    | page found' hnodes harcs hnested hrest =>
      obtain rfl := Option.some.inj (found.symm.trans found')
      have hid : page.id = key := hd.stored key _ (Document.page?_eq_some_iff.mp found)
      have hopened : Spells mark? (line depth (clusterLine key)) [.opened key] := by
        have hline := spells_line depth (clusterLine key)
          (by simp [clusterLine, newline_not_mem_quote]) (by simp [clusterLine])
        rwa [List.filterMap_cons_some (mark?_clusterLine key)] at hline
      have hall := ((((hopened.append (spells_pageLines settings depth hd hnodes harcs)).append
        (inner hnested (depth + 1))).append (spells_closing depth)).append (after hrest depth))
      rw [clusters, cluster, hid, Picture.marksOf, Picture.marks]
      simp only [List.cons_append, List.nil_append, List.append_assoc] at hall ⊢
      exact hall

def Begins (d : Document) (scope : ObjectId) (keys : List ObjectId) : Prop :=
  (∃ n, d.net? scope = some n ∧ keys = n.pages) ∨ (∃ p, d.page? scope = some p ∧ keys = [scope])

theorem Begins.adequate (hd : d.Contained) {scope : ObjectId} (h : Begins d scope keys) :
    d.Adequate (d.size + 1) keys := by
  rcases h with ⟨n, hn, rfl⟩ | ⟨p, hp, rfl⟩
  · exact hd.adequate_net hn
  · intro key hkey
    rw [List.mem_singleton.mp hkey]
    exact ⟨⟨p, hp⟩, by omega⟩

theorem render_of_begins (hd : d.Contained) {scope : ObjectId} (h : Begins d scope keys)
    (settings : Settings) :
    ∃ name, render d scope settings = .ok (graph d settings name keys) := by
  rcases h with ⟨n, hn, rfl⟩ | ⟨p, hp, rfl⟩
  · exact ⟨title n.name n.id, by rw [render, Document.net?_eq_some_iff.mp hn]⟩
  · have ho := Document.page?_eq_some_iff.mp hp
    obtain rfl : p.id = scope := hd.stored scope _ ho
    exact ⟨title p.name p.id, by rw [render, ho]⟩

theorem marksIn_eq {text : String} {marks : List Mark} (h : Spells mark? text marks) :
    marksIn text = marks := by
  have hwhole := h ""
  have hempty : (Text.lines "").filterMap mark? = [] := by decide
  rwa [String.append_empty, hempty, List.append_nil] at hwhole

/-- A picture can be read back, whatever its title and direction are. -/
theorem readPictures_graph (hd : d.Contained) (hkeys : d.Adequate (d.size + 1) keys)
    (settings : Settings) (name : String) : ∃ pictures, Shows d keys pictures ∧
      readPictures settings (graph d settings name keys) = some pictures := by
  have hgrown := hd.grown hkeys
  obtain ⟨pictures, hshows⟩ := Shows.exists_of_grown hd hgrown
  refine ⟨pictures, hshows, ?_⟩
  have hhead : Spells mark? (line 0 ("digraph " ++ quote name ++ " \x7b")) [] :=
    spells_line_nil (c := 'd') 0 (by simp [newline_not_mem_quote]) (by simp) (by decide)
  have hfont : Spells mark? (line 1 "node [fontname=\"Helvetica\"];") [] :=
    spells_line_nil (c := 'n') 1 (by decide) rfl (by decide)
  have hdirection : Spells mark? (directionLine settings) (marksIn (directionLine settings)) := by
    have hline := Spells.line mark?
      (String.ofList (List.replicate (4 * 1) ' ') ++ ("rankdir=" ++ settings.rankdir ++ ";"))
    have hself : marksIn (directionLine settings) = _ := marksIn_eq hline
    rw [hself]
    exact hline
  have hall := (((hhead.append hdirection).append hfont).append
    (spells_clusters hd hgrown hshows settings 1)).append (spells_closing 0)
  have hmarks : marksIn (graph d settings name keys) = _ := marksIn_eq hall
  rw [readPictures, hmarks, List.nil_append, List.append_nil, List.append_assoc,
    List.drop_left, List.foldr_append]
  simp only [List.foldr_cons, List.foldr_nil, enter, foldr_marksOf, List.append_nil]

end Documents

/-- Where two pictures are the same text, the documents have the same pages in them, nested in the
same way and with the same nodes and arcs. All this is read from the text. -/
theorem pictures_of_render_eq {d e : Document} {scope other : ObjectId}
    {keys others : List ObjectId} (hd : d.Reachable Edit.IsPlain)
    (he : e.Reachable Edit.IsPlain) (hs : Begins d scope keys) (ho : Begins e other others)
    (settings : Settings) (h : render d scope settings = render e other settings) :
    ∃ text pictures, render d scope settings = .ok text ∧
      readPictures settings text = some pictures ∧
        (∀ shown, Shows d keys shown ↔ shown = pictures) ∧
        ∀ shown, Shows e others shown ↔ shown = pictures := by
  have hdc : d.Contained := Document.contained_of_tabled hd.registered hd.tabled
  have hec : e.Contained := Document.contained_of_tabled he.registered he.tabled
  obtain ⟨name, hname⟩ := render_of_begins hdc hs settings
  obtain ⟨name', hname'⟩ := render_of_begins hec ho settings
  obtain ⟨pictures, hshows, hread⟩ := readPictures_graph hdc (hs.adequate hdc) settings name
  obtain ⟨pictures', hshows', hread'⟩ := readPictures_graph hec (ho.adequate hec) settings name'
  have htext : graph d settings name keys = graph e settings name' others :=
    Except.ok.inj (hname.symm.trans (h.trans hname'))
  rw [← htext, hread] at hread'
  obtain rfl := Option.some.inj hread'
  exact ⟨_, pictures, hname, hread, fun shown => ⟨hshows.unique, fun h => h ▸ hshows⟩,
    fun shown => ⟨hshows'.unique, fun h => h ▸ hshows'⟩⟩

/-- A net whose identifiers look like parts of a picture. -/
def forgedRun (id : ObjectId) (title name : Option String) : List Action :=
  [.edit (.addNet { id := id, name := title, format := .placeTransition }),
    .edit (.add id (.page { id := ⟨"p\" \x7b\n\x7d"⟩ })),
    .edit (.add ⟨"p\" \x7b\n\x7d"⟩ (.place { id := ⟨"a\" -> \"b"⟩, name := name, tokens := 2 })),
    .edit (.add ⟨"p\" \x7b\n\x7d"⟩ (.transition { id := ⟨"b\\"⟩ })),
    .edit (.add ⟨"p\" \x7b\n\x7d"⟩
      (.arc { id := ⟨"ab"⟩, source := ⟨"a\" -> \"b"⟩, target := ⟨"b\\"⟩, kind := .read }))]

theorem uses_forgedRun (id : ObjectId) (title name : Option String) :
    ∀ a ∈ forgedRun id title name, a.Uses Edit.IsPlain := by
  intro a ha
  simp only [forgedRun, List.mem_cons, List.not_mem_nil, or_false] at ha
  rcases ha with rfl | rfl | rfl | rfl | rfl
  · exact ⟨rfl, rfl⟩
  · exact ⟨rfl, rfl, rfl, rfl, rfl⟩
  · trivial
  · trivial
  · trivial

theorem pictures_of_render_eq_forgedRun : ∃ text pictures,
    render (Document.run (forgedRun ⟨"n"⟩ (some "x") none)) ⟨"n"⟩ {} = .ok text ∧
      readPictures {} text = some pictures ∧
        (∀ shown, Shows (Document.run (forgedRun ⟨"n"⟩ (some "x") none))
          [⟨"p\" \x7b\n\x7d"⟩] shown ↔ shown = pictures) ∧
        ∀ shown, Shows (Document.run (forgedRun ⟨"x"⟩ none (some "a\" -> \"b")))
          [⟨"p\" \x7b\n\x7d"⟩] shown ↔ shown = pictures := by
  have hrender : render (Document.run (forgedRun ⟨"n"⟩ (some "x") none)) ⟨"n"⟩ {} =
      render (Document.run (forgedRun ⟨"x"⟩ none (some "a\" -> \"b"))) ⟨"x"⟩ {} := by
    decide +kernel
  exact pictures_of_render_eq ⟨_, uses_forgedRun ⟨"n"⟩ (some "x") none, rfl⟩
    ⟨_, uses_forgedRun ⟨"x"⟩ none (some "a\" -> \"b"), rfl⟩ (.inl ⟨_, rfl, rfl⟩)
    (.inl ⟨_, rfl, rfl⟩) {} hrender

end PagedNets.Dot
