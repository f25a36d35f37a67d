import PagedNets.Dot
import PagedNets.Proofs.Document.PageOrder
import PagedNets.Proofs.Xml.Lines

set_option autoImplicit false

namespace PagedNets.Dot

open Text (Yields linesAt opens)

def clusterWords : List String := ["subgraph "]

def clusterLine (i : ObjectId) : String := "subgraph " ++ quote ("cluster_" ++ i.text) ++ " \x7b"

def directionLine (settings : Settings) : String := line 1 ("rankdir=" ++ settings.rankdir ++ ";")

section Lines

variable {depth : Nat} {text : String}

theorem newline_not_mem_quote (s : String) : '\n' ∉ (quote s).toList := by
  have hchar : ∀ c, '\n' ∉ Text.labelChar c := by
    intro c
    unfold Text.labelChar
    split_ifs with hq hb hn
    · decide
    · decide
    · decide
    · rw [List.mem_singleton]
      rintro rfl
      exact hn rfl
  simp [quote, Text.escapeLabel, hchar]

theorem head?_quote (s rest : String) : (quote s ++ rest).toList.head? = some '"' := by
  simp [quote]

theorem yields_line (words : List String) (depth : Nat) (h : '\n' ∉ text.toList)
    (hs : ∀ c ∈ text.toList.head?, c ≠ ' ') :
    Yields words (line depth text) ([text].filter (opens words)) :=
  .indented words (4 * depth) h hs

theorem yields_line_nil {c : Char} (depth : Nat) (h : '\n' ∉ text.toList)
    (hhead : text.toList.head? = some c) (hc : c ≠ ' ' ∧ c ≠ 's') :
    Yields clusterWords (line depth text) [] := by
  have hopens : opens clusterWords text = false := by
    cases hchars : text.toList with
    | nil => rw [hchars] at hhead; cases hhead
    | cons x xs =>
      rw [hchars] at hhead
      obtain rfl := Option.some.inj hhead
      simp [opens, clusterWords, hchars, List.isPrefixOf, Ne.symm hc.2]
  have hline := yields_line clusterWords depth h fun x hx => by
    rw [hhead] at hx
    cases hx
    exact hc.1
  simpa [hopens] using hline

theorem yields_join_nil {α : Type} {f : α → String} {l : List α}
    (h : ∀ x ∈ l, Yields clusterWords (f x) []) :
    Yields clusterWords (String.join (l.map f)) [] := by
  have hjoin := Yields.join h
  rwa [List.flatMap_eq_nil_iff.mpr fun _ _ => rfl] at hjoin

end Lines

section Parts

theorem yields_nodeLine (depth : Nat) (id : ObjectId) (label : String) {shape fill : String}
    (hs : '\n' ∉ shape.toList) (hf : '\n' ∉ fill.toList) :
    Yields clusterWords (nodeLine depth id label shape fill) [] := by
  refine yields_line_nil (c := '"') depth ?_ ?_ (by decide)
  · simp [newline_not_mem_quote, hs, hf]
  · simp only [String.append_assoc, head?_quote]

theorem yields_objectLine (settings : Settings) (depth : Nat) (o : Object) :
    Yields clusterWords (objectLine settings depth o) [] := by
  cases o with
  | place p => exact yields_nodeLine depth p.id _ (by decide) (by decide)
  | transition t => exact yields_nodeLine depth t.id _ (by decide) (by decide)
  | _ => exact .nil clusterWords

theorem yields_arcLine (depth : Nat) (a : Arc) : Yields clusterWords (arcLine depth a) [] := by
  unfold arcLine
  split <;> refine yields_line_nil (c := '"') depth ?_ ?_ (by decide)
  · simp [newline_not_mem_quote]
  · simp only [String.append_assoc, head?_quote]
  · simp [newline_not_mem_quote]
  · simp only [String.append_assoc, head?_quote]

/-- No cluster is opened among the nodes and arcs of a page. -/
theorem yields_pageLines (d : Document) (settings : Settings) (depth : Nat) (page : Page) :
    Yields clusterWords (pageLines d settings depth page) [] := by
  have hlabel : Yields clusterWords
      (line (depth + 1) ("label=" ++ quote (title page.name page.id) ++ ";")) [] :=
    yields_line_nil (c := 'l') (depth + 1) (by simp [newline_not_mem_quote]) (by simp) (by decide)
  have hnodes : ∀ key ∈ page.nodes.keys, Yields clusterWords
      (((d.object? key).map (objectLine settings (depth + 1))).getD "") [] := by
    intro key _
    cases d.object? key with
    | none => exact .nil clusterWords
    | some o => exact yields_objectLine settings (depth + 1) o
  have harcs : ∀ key ∈ page.arcs.keys, Yields clusterWords
      (((d.arc? key).map (arcLine (depth + 1))).getD "") [] := by
    intro key _
    cases d.arc? key with
    | none => exact .nil clusterWords
    | some a => exact yields_arcLine (depth + 1) a
  exact (hlabel.append (yields_join_nil hnodes)).append (yields_join_nil harcs)

theorem yields_clusterLine (depth : Nat) (i : ObjectId) :
    Yields clusterWords (line depth (clusterLine i)) [clusterLine i] := by
  have hopens : opens clusterWords (clusterLine i) = true := by
    refine List.any_eq_true.mpr ⟨_, List.mem_singleton_self _, List.isPrefixOf_iff_prefix.mpr ?_⟩
    simp [clusterLine]
  have hwhole : '\n' ∉ (clusterLine i).toList := by simp [clusterLine, newline_not_mem_quote]
  have hline := yields_line clusterWords depth hwhole (by simp [clusterLine])
  simpa [hopens] using hline

theorem yields_clusters {d : Document} {keys : List ObjectId} {trees : List PageTree}
    (hd : d.Contained) (h : d.Grown keys trees) (settings : Settings) (depth : Nat) :
    Yields clusterWords (clusters d settings depth trees)
      ((PageTree.keysOf trees).map clusterLine) := by
  induction h generalizing depth with
  | nil => exact .nil clusterWords
  | @page key rest nested trees page found _ _ inner after =>
    have hid : page.id = key := hd.stored key _ (Document.page?_eq_some_iff.mp found)
    have hend : Yields clusterWords (line depth "\x7d") [] :=
      yields_line_nil (c := '\x7d') depth (by decide) rfl (by decide)
    have hall := ((((yields_clusterLine depth key).append
      (yields_pageLines d settings depth page)).append (inner (depth + 1))).append hend).append
        (after depth)
    rw [List.append_nil, List.append_nil] at hall
    rw [clusters, cluster, hid, PageTree.keysOf, PageTree.keys, List.map_append, List.map_cons]
    exact hall

end Parts

section Direction

variable (settings : Settings)

theorem yields_directionLine : Yields clusterWords (directionLine settings)
    (linesAt clusterWords (directionLine settings)) := by
  have hline := Yields.line clusterWords
    (String.ofList (List.replicate (4 * 1) ' ') ++ ("rankdir=" ++ settings.rankdir ++ ";"))
  have hself : linesAt clusterWords (directionLine settings) = _ := hline.linesAt_eq (by decide)
  rw [hself]
  exact hline

theorem linesAt_directionLine (h : '\n' ∉ settings.rankdir.toList) :
    linesAt clusterWords (directionLine settings) = [] := by
  have hline : Yields clusterWords (directionLine settings) [] :=
    yields_line_nil (c := 'r') 1 (by simp [h]) (by simp) (by decide)
  exact hline.linesAt_eq (by decide)

end Direction

/-- The picture of a net has a cluster for each of its pages. -/
theorem linesAt_render {d : Document} (hd : d.Contained) {n : Net} (hn : d.net? n.id = some n)
    (settings : Settings) : ∃ text, render d n.id settings = .ok text ∧
      linesAt clusterWords text =
        linesAt clusterWords (directionLine settings) ++ (d.pagesOf n).map clusterLine ∧
      ('\n' ∉ settings.rankdir.toList →
        linesAt clusterWords text = (d.pagesOf n).map clusterLine) := by
  refine ⟨graph d settings (title n.name n.id) n.pages, ?_, ?_⟩
  · rw [render, Document.net?_eq_some_iff.mp hn]
  have hhead : Yields clusterWords
      (line 0 ("digraph " ++ quote (title n.name n.id) ++ " \x7b")) [] :=
    yields_line_nil (c := 'd') 0 (by simp [newline_not_mem_quote]) (by simp) (by decide)
  have hfont : Yields clusterWords (line 1 "node [fontname=\"Helvetica\"];") [] :=
    yields_line_nil (c := 'n') 1 (by decide) rfl (by decide)
  have hend : Yields clusterWords (line 0 "\x7d") [] :=
    yields_line_nil (c := '\x7d') 0 (by decide) rfl (by decide)
  have hpages := yields_clusters hd (hd.grown (hd.adequate_net hn)) settings 1
  have hall := (((hhead.append (yields_directionLine settings)).append hfont).append hpages).append
    hend
  rw [List.append_nil, List.append_nil, List.nil_append] at hall
  have hfound := hall.linesAt_eq (by decide)
  refine ⟨hfound, fun hwhole => ?_⟩
  rw [linesAt_directionLine settings hwhole] at hfound
  exact hfound

end PagedNets.Dot
