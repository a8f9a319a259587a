import Witcher.GraphText
import Witcher.Loops
import Witcher.ParallelEdges

/-! Graphs that are written and read again. Every delimiter that the reader looks for is found where the
writer put it, whatever the source lines contain besides the few texts that end a line or a graph or that
name its parts. -/

namespace Witcher

open PythonText TextSearch

/-- A source line that does not disturb the format. -/
structure PlainSource (src : List Char) : Prop where
  newline : '\n' ∉ src
  carriageReturn : '\r' ∉ src
  brace : '\x7d' ∉ src
  arrow : ¬"->".toList <:+: src
  traceEntry : ¬"TraceEntry".toList <:+: src

instance (src : List Char) : Decidable (PlainSource src) :=
  decidable_of_iff ('\n' ∉ src ∧ '\r' ∉ src ∧ '\x7d' ∉ src ∧ ¬"->".toList <:+: src ∧ ¬"TraceEntry".toList <:+: src)
    ⟨fun ⟨hnewline, hreturn, hbrace, harrow, hentry⟩ => ⟨hnewline, hreturn, hbrace, harrow, hentry⟩,
      fun h => ⟨h.newline, h.carriageReturn, h.brace, h.arrow, h.traceEntry⟩⟩

theorem parseInt_print (table : CharTable) {base : Nat} (hbase : 1 < base) (hbase' : base ≤ 16) (n : Nat) :
    parseInt table base (print base n) = .ok (n : Int) := by
  rw [parseInt, int_print table hbase hbase' n]

/-! ### Nodes -/

def typeName : NodeType → List Char
  | .store => "Store".toList
  | .load => "Load".toList

def nodeFields (type : NodeType) (entry : Entry) : List Char :=
  typeName type ++ ',' :: (print 16 entry.address.toNat ++ ',' :: print 10 entry.length.toNat)

/-- The line of a node up to its source line. -/
def nodeHead (i traceIndex : Nat) : List Char :=
  print 10 i ++ '[' :: ("label=\"TI:".toList ++ print 10 traceIndex ++ ":::Src".toList)

/-- The line of a node from its source line on. -/
def nodeTail (type : NodeType) (entry : Entry) : List Char :=
  ":".toList ++ ':' :: ("TraceEntry".toList ++ ':' :: (nodeFields type entry ++ "\"];".toList))

def nodeLine (i : Nat) (info : TraceInfo) : List Char :=
  nodeHead i info.traceIndex ++ ':' :: (info.srcInfo.toList ++ ':' :: nodeTail info.nodeType info.traceEntry)

theorem accessType_eq {info : TraceInfo} (htype : info.traceEntry.type = .stType ∨ info.traceEntry.type = .ldType) :
    PPDG.accessType info.traceEntry.type = some (typeName info.nodeType ++ [',']) := by
  rcases htype with htype | htype
  · rw [TraceInfo.nodeType, htype]
    decide
  · rw [TraceInfo.nodeType, htype]
    decide

theorem writeVertexLine_eq {ν : Type} (d : DynValue ν) {info : TraceInfo} (i : Nat)
    (htype : info.traceEntry.type = .stType ∨ info.traceEntry.type = .ldType) :
    PPDG.writeVertexLine ((d, info), i) = some (nodeLine i info ++ ['\n']) := by
  have hlabel : ∀ rest, "[label=\"".toList ++ ("TI:".toList ++ rest) = '[' :: ("label=\"TI:".toList ++ rest) := fun _ => rfl
  have hsrc : ∀ rest, ":::Src:".toList ++ rest = ":::Src".toList ++ ':' :: rest := fun _ => rfl
  have hentry : ∀ rest, ":::TraceEntry:".toList ++ rest = ':' :: (":".toList ++ ':' :: ("TraceEntry".toList ++ ':' :: rest)) :=
    fun _ => rfl
  have hend : "\"]".toList ++ ";\n".toList = "\"];".toList ++ ['\n'] := by decide
  unfold PPDG.writeVertexLine PPDG.writeVertex nodeLine nodeHead nodeTail nodeFields
  simp only [accessType_eq htype, Option.map_some, List.append_assoc, List.cons_append, List.nil_append, hlabel,
    hsrc, hentry, hend]

/-- The characters of `nodeHead` besides its numbers. -/
def headChars : List Char := ['['] ++ "label=\"TI:".toList ++ ":::Src".toList

/-- The characters of `nodeTail` besides its numbers. -/
def tailChars : List Char :=
  [':', ','] ++ "TraceEntry".toList ++ "Store".toList ++ "Load".toList ++ "\"];".toList

theorem not_mem_nodeHead {c : Char} (hdigit : digitValue c = none) (hc : c ∉ headChars) (i traceIndex : Nat) :
    c ∉ nodeHead i traceIndex := by
  have hdec : ∀ n, c ∉ print 10 n := fun n => not_mem_print (by decide) (by decide) hdigit
  simp only [headChars, List.mem_append, List.mem_singleton, not_or] at hc
  obtain ⟨⟨hbracket, hlabel⟩, hsrc⟩ := hc
  simp only [nodeHead, List.mem_append, List.mem_cons, not_or]
  exact ⟨hdec i, hbracket, ⟨hlabel, hdec traceIndex⟩, hsrc⟩

theorem not_mem_nodeTail {c : Char} (hdigit : digitValue c = none) (hc : c ∉ tailChars) (type : NodeType) (entry : Entry) :
    c ∉ nodeTail type entry := by
  have hprint : ∀ {base : Nat} (n : Nat), 1 < base → base ≤ 16 → c ∉ print base n :=
    fun n hbase hbase' => not_mem_print hbase hbase' hdigit
  simp only [tailChars, List.mem_append, List.mem_pair, not_or] at hc
  obtain ⟨⟨⟨⟨⟨hcolon, hcomma⟩, hentry⟩, hstore⟩, hload⟩, hend⟩ := hc
  have htype : c ∉ typeName type := by
    cases type with
    | store => exact hstore
    | load => exact hload
  simp only [nodeTail, nodeFields, List.mem_append, List.mem_cons, not_or]
  exact ⟨by simpa using hcolon, hcolon, hentry, hcolon,
    ⟨htype, hcomma, hprint _ (by decide) (by decide), hcomma, hprint _ (by decide) (by decide)⟩, hend⟩

theorem arrow_not_infix_nodeLine (i : Nat) {info : TraceInfo} (hsrc : PlainSource info.srcInfo.toList) :
    ¬"->".toList <:+: nodeLine i info := by
  intro h
  rcases infix_append (by decide) h with h | h
  · exact not_infix_of_not_mem (c := '>') (by decide) (not_mem_nodeHead (by decide) (by decide) _ _) h
  · rcases infix_append (by decide) h with h | h
    · exact hsrc.arrow h
    · exact not_infix_of_not_mem (c := '>') (by decide) (not_mem_nodeTail (by decide) (by decide) _ _) h

/-- Everything before the separator in front of the entry. -/
def nodeFront (i : Nat) (info : TraceInfo) : List Char :=
  nodeHead i info.traceIndex ++ ':' :: (info.srcInfo.toList ++ ':' :: ":".toList)

theorem nodeLine_eq (i : Nat) (info : TraceInfo) :
    nodeLine i info = nodeFront i info ++ ':' :: ("TraceEntry".toList ++ ':' ::
      (nodeFields info.nodeType info.traceEntry ++ "\"];".toList)) := by
  simp [nodeLine, nodeFront, nodeTail]

theorem traceEntry_not_infix_nodeFront (i : Nat) {info : TraceInfo} (hsrc : PlainSource info.srcInfo.toList) :
    ¬"TraceEntry".toList <:+: nodeFront i info := by
  intro h
  rcases infix_append (by decide) h with h | h
  · exact not_infix_of_not_mem (c := 'y') (by decide) (not_mem_nodeHead (by decide) (by decide) _ _) h
  · rcases infix_append (by decide) h with h | h
    · exact hsrc.traceEntry h
    · exact not_infix_of_not_mem (c := 'y') (by decide) (by decide) h

theorem splitOn_nodeFields (type : NodeType) (entry : Entry) :
    (nodeFields type entry).splitOn ',' = [typeName type, print 16 entry.address.toNat, print 10 entry.length.toNat] := by
  have hjoin : nodeFields type entry =
      [','].intercalate [typeName type, print 16 entry.address.toNat, print 10 entry.length.toNat] := by
    simp [nodeFields]
  rw [hjoin]
  apply List.splitOn_intercalate
  · simp only [List.forall_mem_cons]
    refine ⟨?_, not_mem_print (by decide) (by decide) (by decide), not_mem_print (by decide) (by decide) (by decide), by simp⟩
    cases type <;> decide
  · simp

theorem newNode_typeName (i : Int) (type : NodeType) (address size : Int) :
    newNode i (typeName type) address size = .ok ⟨i, type, address, size⟩ := by
  cases type <;> rfl

theorem generateNode_nodeLine (table : CharTable) (i : Nat) {info : TraceInfo} (hsrc : PlainSource info.srcInfo.toList) :
    generateNode table (nodeLine i info) =
      .ok ⟨i, info.nodeType, info.traceEntry.address.toNat, info.traceEntry.length.toNat⟩ := by
  obtain ⟨rest, hrest⟩ : ∃ rest, nodeLine i info = print 10 i ++ '[' :: rest :=
    ⟨_, by rw [nodeLine, nodeHead, List.append_assoc, List.cons_append]⟩
  have hid : slice (nodeLine i info) 0 (find ['['] (nodeLine i info)) = print 10 i := by
    rw [hrest, find_char (not_mem_print (by decide) (by decide) (by decide))]
    simpa using slice_middle [] (print 10 i) ('[' :: rest)
  have hplace : find "TraceEntry".toList (nodeLine i info) + "TraceEntry".toList.length + 1 =
      ((nodeFront i info ++ ':' :: ("TraceEntry".toList ++ ":".toList)).length : Nat) := by
    rw [nodeLine_eq, find_pattern (by decide) (traceEntry_not_infix_nodeFront i hsrc)]
    simp
    omega
  have hentry : slice (nodeLine i info) (find "TraceEntry".toList (nodeLine i info) + "TraceEntry".toList.length + 1) (-3) =
      nodeFields info.nodeType info.traceEntry := by
    have hcut : nodeLine i info = (nodeFront i info ++ ':' :: ("TraceEntry".toList ++ ":".toList)) ++
        (nodeFields info.nodeType info.traceEntry ++ "\"];".toList) := by
      rw [nodeLine_eq]
      simp
    rw [hplace, hcut]
    exact slice_before _ _ (by decide)
  rw [generateNode, hid, parseInt_print table (by decide) (by decide), Loops.ok_bind, hentry]
  simp only [splitOn_nodeFields, readItem, List.getElem?_cons_zero, List.getElem?_cons_succ, Loops.ok_bind,
    parseInt_print table (show 1 < 16 by decide) (show 16 ≤ 16 by decide),
      parseInt_print table (show 1 < 10 by decide) (show 10 ≤ 16 by decide),
    newNode_typeName]

/-! ### Edges -/

def edgeLine (e : DepEdge) : List Char :=
  print 10 e.source ++ '-' :: '>' ::
    (print 10 e.target ++ ' ' :: ("[label=".toList ++ '\x22' :: (PPDG.edgeType e.kind ++ "\"];".toList)))

theorem writeEdgeLine_eq (e : DepEdge) : PPDG.writeEdgeLine e = edgeLine e ++ ['\n'] := by
  have harrow : "->".toList = ['-', '>'] := by decide
  have hblank : " ".toList = [' '] := by decide
  have hlabel : "[label=\"".toList = "[label=".toList ++ ['\x22'] := by decide
  have hend : "\"]".toList ++ ";\n".toList = "\"];".toList ++ ['\n'] := by decide
  unfold PPDG.writeEdgeLine PPDG.writeEdge edgeLine
  simp only [harrow, hblank, hlabel, List.append_assoc, List.cons_append, List.nil_append, hend]

theorem arrow_infix_edgeLine (e : DepEdge) : "->".toList <:+: edgeLine e := by
  refine ⟨print 10 e.source, print 10 e.target ++ ' ' :: ("[label=".toList ++ '\x22' ::
    (PPDG.edgeType e.kind ++ "\"];".toList)), ?_⟩
  simp [edgeLine]

/-- The characters of `edgeLine` besides its numbers. -/
def edgeChars : List Char := ['-', '>'] ++ [' ', '\x22'] ++ "[label=".toList ++ "data".toList ++ "ctrl".toList ++ "\"];".toList

theorem not_mem_edgeLine {c : Char} (hdigit : digitValue c = none) (hc : c ∉ edgeChars) (e : DepEdge) : c ∉ edgeLine e := by
  have hdec : ∀ n, c ∉ print 10 n := fun n => not_mem_print (by decide) (by decide) hdigit
  simp only [edgeChars, List.mem_append, List.mem_pair, not_or] at hc
  obtain ⟨⟨⟨⟨⟨⟨hminus, hgreater⟩, hblank, hquote⟩, hlabel⟩, hdata⟩, hctrl⟩, hend⟩ := hc
  have hkind : c ∉ PPDG.edgeType e.kind := by
    cases e.kind with
    | dataDep => exact hdata
    | ctrlDep => exact hctrl
  simp only [edgeLine, List.mem_append, List.mem_cons, not_or]
  exact ⟨hdec _, hminus, hgreater, hdec _, hblank, hlabel, hquote, hkind, hend⟩

theorem newEdge_edgeType (kind : Edge) (s t : Int) : newEdge (PPDG.edgeType kind) s t = .ok ⟨kind, s, t⟩ := by
  cases kind <;> rfl

theorem generateEdge_edgeLine (table : CharTable) (e : DepEdge) :
    generateEdge table (edgeLine e) = .ok ⟨e.kind, e.source, e.target⟩ := by
  have hdec : ∀ {c : Char} (n : Nat), digitValue c = none →
    c ∉ print 10 n := fun n hc => not_mem_print (by decide) (by decide) hc
  have hsource : slice (edgeLine e) 0 (find ['-'] (edgeLine e)) = print 10 e.source := by
    rw [edgeLine, find_char (hdec _ (by decide))]
    simpa using slice_middle [] (print 10 e.source) _
  have hgreater : find ['>'] (edgeLine e) + 1 = ((print 10 e.source ++ "->".toList).length : Nat) := by
    have hcut : edgeLine e = (print 10 e.source ++ ['-']) ++ '>' :: (print 10 e.target ++ ' ' ::
        ("[label=".toList ++ '\x22' :: (PPDG.edgeType e.kind ++ "\"];".toList))) := by
      simp [edgeLine]
    rw [hcut, find_char (by simp [hdec _ (show digitValue '>' = none by decide)])]
    simp
    omega
  have hblank : find [' '] (edgeLine e) =
      ((print 10 e.source ++ "->".toList).length : Nat) + ((print 10 e.target).length : Nat) := by
    have hcut : edgeLine e = (print 10 e.source ++ "->".toList ++ print 10 e.target) ++ ' ' ::
        ("[label=".toList ++ '\x22' :: (PPDG.edgeType e.kind ++ "\"];".toList)) := by
      simp [edgeLine]
    rw [hcut, find_char (by simp [hdec _ (show digitValue ' ' = none by decide)]), List.length_append, Nat.cast_add]
  have htarget : slice (edgeLine e) (find ['>'] (edgeLine e) + 1) (find [' '] (edgeLine e)) = print 10 e.target := by
    have hcut : edgeLine e = (print 10 e.source ++ "->".toList) ++ (print 10 e.target ++ ' ' ::
        ("[label=".toList ++ '\x22' :: (PPDG.edgeType e.kind ++ "\"];".toList))) := by
      simp [edgeLine]
    rw [hgreater, hblank, hcut]
    exact slice_middle _ _ _
  have htype : slice (edgeLine e) (find ['\x22'] (edgeLine e) + 1) (-3) = PPDG.edgeType e.kind := by
    have hcut : edgeLine e = (print 10 e.source ++ "->".toList ++ print 10 e.target ++ " [label=".toList) ++
        '\x22' :: (PPDG.edgeType e.kind ++ "\"];".toList) := by
      simp [edgeLine]
    have hcut' : edgeLine e = (print 10 e.source ++ "->".toList ++ print 10 e.target ++ " [label=\"".toList) ++
        (PPDG.edgeType e.kind ++ "\"];".toList) := by
      simp [edgeLine]
    have hquote : find ['\x22'] (edgeLine e) + 1 =
        ((print 10 e.source ++ "->".toList ++ print 10 e.target ++ " [label=\"".toList).length : Nat) := by
      rw [hcut, find_char (by simp [hdec _ (show digitValue '\x22' = none by decide)])]
      simp
      omega
    rw [hquote, hcut']
    exact slice_before _ _ (by decide)
  rw [generateEdge, hsource, parseInt_print table (by decide) (by decide), Loops.ok_bind, htarget,
    parseInt_print table (by decide) (by decide), Loops.ok_bind, htype, newEdge_edgeType]

/-! ### Graphs -/

section

variable {ν : Type} [DecidableEq ν]

/-- A graph of loads and stores whose source lines do not disturb the format. -/
structure PPDG.Printable (g : PPDG ν) : Prop where
  access : ∀ v ∈ g.vertices, v.2.traceEntry.type = .stType ∨ v.2.traceEntry.type = .ldType
  source : ∀ v ∈ g.vertices, PlainSource v.2.srcInfo.toList

def PPDG.nodeLines (g : PPDG ν) : List (List Char) := g.vertices.zipIdx.map fun v => nodeLine v.2 v.1.2

def PPDG.edgeLines (g : PPDG ν) : List (List Char) := g.edges.map edgeLine

/-- The text of a graph before its closing brace. -/
def PPDG.body (g : PPDG ν) : List Char := ("digraph G \x7b".toList :: (g.nodeLines ++ g.edgeLines)).flatMap (· ++ ['\n'])

theorem mem_zipIdx_vertex {g : PPDG ν} {v : (DynValue ν × TraceInfo) × Nat} (h : v ∈ g.vertices.zipIdx) : v.1 ∈ g.vertices :=
  List.mem_of_getElem? (List.mem_zipIdx_iff_getElem?.mp h)

theorem mapM_some {α β : Type} {f : α → Option β} {value : α → β} {l : List α} (h : ∀ a ∈ l, f a = some (value a)) :
    l.mapM f = some (l.map value) := by
  induction l with
  | nil => rfl
  | cons a l ih =>
      rw [List.mapM_cons, h a List.mem_cons_self, ih fun b hb => h b (List.mem_cons_of_mem a hb)]
      rfl

theorem writeGraphviz_eq {g : PPDG ν} (h : g.Printable) : g.writeGraphviz = some (g.body ++ "\x7d\n".toList) := by
  have hvertices : g.vertices.zipIdx.mapM PPDG.writeVertexLine = some (g.nodeLines.map (· ++ ['\n'])) := by
    rw [PPDG.nodeLines, List.map_map]
    apply mapM_some
    intro v hv
    exact writeVertexLine_eq v.1.1 v.2 (h.access v.1 (mem_zipIdx_vertex hv))
  have hedges : g.edges.flatMap PPDG.writeEdgeLine = g.edgeLines.flatMap (· ++ ['\n']) := by
    rw [PPDG.edgeLines, List.flatMap_map]
    exact List.flatMap_congr fun e _ => writeEdgeLine_eq e
  have hheader : "digraph G \x7b\n".toList = "digraph G \x7b".toList ++ ['\n'] := by decide
  unfold PPDG.writeGraphviz PPDG.body
  simp only [hvertices, Option.bind_eq_bind, Option.bind_some, hedges, hheader, List.flatMap_def, List.map_cons,
    List.map_append, List.flatten_cons, List.flatten_append, List.append_assoc]

/-- A character that the format does not use stands in no line. -/
theorem not_mem_lines {g : PPDG ν} {c : Char} (hdigit : digitValue c = none) (hc : c ∉ headChars ++ tailChars ++ edgeChars)
    (hsrc : ∀ v ∈ g.vertices, c ∉ v.2.srcInfo.toList) : ∀ line ∈ g.nodeLines ++ g.edgeLines, c ∉ line := by
  simp only [List.mem_append, not_or] at hc
  obtain ⟨⟨hhead, htail⟩, hedge⟩ := hc
  intro line hline
  rcases List.mem_append.mp hline with hline | hline
  · obtain ⟨v, hv, rfl⟩ := List.mem_map.mp hline
    have hcolon : c ≠ ':' := fun heq => htail (heq ▸ by decide)
    simp only [nodeLine, List.mem_append, List.mem_cons, not_or]
    exact ⟨not_mem_nodeHead hdigit hhead v.2 v.1.2.traceIndex, hcolon, hsrc v.1 (mem_zipIdx_vertex hv), hcolon,
      not_mem_nodeTail hdigit htail v.1.2.nodeType v.1.2.traceEntry⟩
  · obtain ⟨e, -, rfl⟩ := List.mem_map.mp hline
    exact not_mem_edgeLine hdigit hedge e

theorem lines_ne_nil (g : PPDG ν) : ∀ line ∈ g.nodeLines ++ g.edgeLines, line ≠ [] := by
  intro line hline
  rcases List.mem_append.mp hline with hline | hline
  · obtain ⟨v, -, rfl⟩ := List.mem_map.mp hline
    simp [nodeLine]
  · obtain ⟨e, -, rfl⟩ := List.mem_map.mp hline
    simp [edgeLine]

/-- The lines that are left of a graph, which follows the newline of the one before. -/
theorem ppdgStrList_eq {g : PPDG ν} (h : g.Printable) {front : List Char} (hfront : front = [] ∨ front = ['\n']) :
    (((front ++ g.body).splitOn '\n').filter (· ≠ [])).drop 1 = g.nodeLines ++ g.edgeLines := by
  have hnewline : ∀ line ∈ g.nodeLines ++ g.edgeLines, '\n' ∉ line :=
    not_mem_lines (by decide) (by decide +kernel) fun v hv => (h.source v hv).newline
  have hsplit : g.body.splitOn '\n' = ("digraph G \x7b".toList :: (g.nodeLines ++ g.edgeLines)) ++ [[]] := by
    unfold PPDG.body
    exact TextLines.splitOn_flatMap (List.forall_mem_cons.mpr ⟨by decide, hnewline⟩)
  have hkeep : (g.nodeLines ++ g.edgeLines).filter (· ≠ []) = g.nodeLines ++ g.edgeLines :=
    List.filter_eq_self.mpr fun line hline => by simpa using lines_ne_nil g line hline
  have hbody : ((g.body.splitOn '\n').filter (· ≠ [])) = "digraph G \x7b".toList :: (g.nodeLines ++ g.edgeLines) := by
    rw [hsplit, List.filter_append, List.filter_cons_of_pos (by decide), hkeep, List.filter_cons_of_neg (by decide),
      List.filter_nil, List.append_nil]
  rcases hfront with rfl | rfl
  · rw [List.nil_append, hbody, List.drop_succ_cons, List.drop_zero]
  · have hempty : (['\n'] ++ g.body).splitOn '\n' = [] :: g.body.splitOn '\n' :=
      List.splitOn_append_cons_self_of_not_mem List.not_mem_nil g.body
    rw [hempty, List.filter_cons_of_neg (by decide), hbody, List.drop_succ_cons, List.drop_zero]

theorem readPPDG_body (table : CharTable) {g : PPDG ν} (h : g.Printable) {front : List Char}
    (hfront : front = [] ∨ front = ['\n']) :
    readPPDG table (front ++ g.body) = .ok (g.graphNodes, g.graphEdges) := by
  have hnodes : ∀ line ∈ g.nodeLines, contains "->".toList line = false := by
    intro line hline
    obtain ⟨v, hv, rfl⟩ := List.mem_map.mp hline
    have hnot := arrow_not_infix_nodeLine v.2 (h.source v.1 (mem_zipIdx_vertex hv))
    rw [← contains_iff] at hnot
    simpa using hnot
  have hedges : ∀ line ∈ g.edgeLines, contains "->".toList line = true := by
    intro line hline
    obtain ⟨e, -, rfl⟩ := List.mem_map.mp hline
    exact contains_iff.mpr (arrow_infix_edgeLine e)
  have hfilter : (g.nodeLines ++ g.edgeLines).filter (fun item => !contains "->".toList item) = g.nodeLines := by
    rw [List.filter_append, List.filter_eq_self.mpr fun line hline => by simp only [hnodes line hline, Bool.not_false],
      List.filter_eq_nil_iff.mpr fun line hline => by
        simp only [hedges line hline, Bool.not_true, Bool.false_eq_true, not_false_eq_true],
      List.append_nil]
  have hfilter' : (g.nodeLines ++ g.edgeLines).filter (fun item => contains "->".toList item) = g.edgeLines := by
    rw [List.filter_append, List.filter_eq_self.mpr hedges,
      List.filter_eq_nil_iff.mpr fun line hline => by simp only [hnodes line hline, Bool.false_eq_true, not_false_eq_true],
      List.nil_append]
  have hgraphNodes : g.nodeLines.mapM (generateNode table) = .ok g.graphNodes := by
    rw [PPDG.nodeLines, List.mapM_map, PPDG.graphNodes, List.mapIdx_eq_zipIdx_map]
    apply Loops.mapM_ok
    intro v hv
    exact generateNode_nodeLine table v.2 (h.source v.1 (mem_zipIdx_vertex hv))
  have hgraphEdges : g.edgeLines.mapM (generateEdge table) = .ok g.graphEdges := by
    rw [PPDG.edgeLines, List.mapM_map, PPDG.graphEdges]
    apply Loops.mapM_ok
    intro e _
    exact generateEdge_edgeLine table e
  unfold readPPDG
  simp only [ppdgStrList_eq h hfront, hfilter, hfilter', hgraphNodes, hgraphEdges, Loops.ok_bind]

/-! ### All graphs -/

theorem not_mem_body {g : PPDG ν} {c : Char} (hdigit : digitValue c = none)
    (hc : c ∉ headChars ++ tailChars ++ edgeChars) (hheader : c ∉ "digraph G \x7b".toList) (hnewline : c ≠ '\n')
    (hsrc : ∀ v ∈ g.vertices, c ∉ v.2.srcInfo.toList) : c ∉ g.body := by
  intro hmem
  obtain ⟨line, hline, hmem⟩ := List.mem_flatMap.mp hmem
  rcases List.mem_append.mp hmem with hmem | hmem
  · rcases List.mem_cons.mp hline with rfl | hline
    · exact hheader hmem
    · exact not_mem_lines hdigit hc hsrc line hline hmem
  · exact hnewline (List.mem_singleton.mp hmem)

theorem mapM_readPPDG (table : CharTable) {gs : List (PPDG ν)} (h : ∀ g ∈ gs, g.Printable) {front : List Char}
    (hfront : front = [] ∨ front = ['\n']) :
    ((front ++ gs.flatMap fun g => g.body ++ "\x7d\n".toList).splitOn '\x7d').dropLast.mapM (readPPDG table) =
      .ok (gs.map fun g => (g.graphNodes, g.graphEdges)) := by
  have hbrace : '\x7d' ∉ front := by
    rcases hfront with rfl | rfl <;> decide
  induction gs generalizing front with
  | nil =>
      rw [List.flatMap_nil, List.append_nil, List.splitOn_eq_singleton hbrace]
      rfl
  | cons g gs ih =>
      have hg := h g List.mem_cons_self
      have hrest := ih (fun g' hg' => h g' (List.mem_cons_of_mem g hg')) (.inr rfl) (by decide)
      have hbody : '\x7d' ∉ front ++ g.body := by
        rw [List.mem_append, not_or]
        exact ⟨hbrace, not_mem_body (by decide) (by decide +kernel) (by decide) (by decide) fun v hv => (hg.source v hv).brace⟩
      have hcut : (front ++ (g :: gs).flatMap fun g => g.body ++ "\x7d\n".toList) =
          (front ++ g.body) ++ '\x7d' :: (['\n'] ++ gs.flatMap fun g => g.body ++ "\x7d\n".toList) := by
        simp
      rw [hcut, List.splitOn_append_cons_self_of_not_mem hbody, List.dropLast_cons_of_ne_nil (List.splitOn_ne_nil _ _),
        List.mapM_cons, readPPDG_body table hg hfront, Loops.ok_bind, hrest, Loops.ok_bind]
      rfl

/-- Printable graphs are read as they were written: the same nodes and the same edges, in order. -/
theorem readPPDGs_writeGraphviz (table : CharTable) (gs : List (PPDG ν)) (h : ∀ g ∈ gs, g.Printable) :
    ∃ texts, gs.mapM PPDG.writeGraphviz = some texts ∧
      readPPDGs table texts.flatten = .ok (gs.map fun g => (g.graphNodes, g.graphEdges)) := by
  refine ⟨gs.map fun g => g.body ++ "\x7d\n".toList, mapM_some fun g hg => writeGraphviz_eq (h g hg), ?_⟩
  have hreturn : '\r' ∉ gs.flatMap fun g => g.body ++ "\x7d\n".toList := by
    intro hmem
    obtain ⟨g, hg, hmem⟩ := List.mem_flatMap.mp hmem
    rcases List.mem_append.mp hmem with hmem | hmem
    · exact not_mem_body (by decide) (by decide +kernel) (by decide) (by decide)
        (fun v hv => ((h g hg).source v hv).carriageReturn) hmem
    · exact absurd hmem (by decide)
  rw [readPPDGs, ← List.flatMap_def, TextLines.universalNewlines_eq hreturn]
  exact mapM_readPPDG table h (.inl rfl)

end

/-- A store that depends twice on a load. -/
def parallelEdges (src : String) : PPDG Nat :=
  ⟨[(⟨0, 1⟩, ⟨3, ⟨.ldType, 1, 9, 0x10000040, 8⟩, "list.c:12"⟩), (⟨1, 2⟩, ⟨5, ⟨.stType, 2, 9, 0x10000048, 8⟩, src⟩)], Dict.empty,
    [⟨1, 0, .dataDep⟩, ⟨1, 0, .ctrlDep⟩], fun _ _ h => by cases h⟩

theorem printable_parallelEdges : ∀ g ∈ [parallelEdges "list.c:14", PPDG.empty], g.Printable := by
  rw [List.forall_mem_cons, List.forall_mem_singleton]
  constructor
  · exact ⟨by decide, by decide +kernel⟩
  · exact ⟨fun v hv => absurd hv List.not_mem_nil, fun v hv => absurd hv List.not_mem_nil⟩

theorem readPPDGs_parallelEdges :
    (∀ g ∈ [parallelEdges "list.c:14", PPDG.empty], g.Printable) ∧
      ∃ texts, [parallelEdges "list.c:14", PPDG.empty].mapM PPDG.writeGraphviz = some texts ∧
        readPPDGs ⟨id, fun _ _ => rfl⟩ texts.flatten =
          .ok ([parallelEdges "list.c:14", PPDG.empty].map fun g => (g.graphNodes, g.graphEdges)) :=
  ⟨printable_parallelEdges, readPPDGs_writeGraphviz _ _ printable_parallelEdges⟩

/-- A carriage return in a source line is read as a newline. -/
theorem readPPDGs_fails_carriageReturn : ∃ text, PPDG.writeGraphviz (parallelEdges "li\rst.c:14") = some text ∧
    '\n' ∉ "li\rst.c:14".toList ∧ '\x7d' ∉ "li\rst.c:14".toList ∧ ¬"->".toList <:+: "li\rst.c:14".toList ∧
    ¬"TraceEntry".toList <:+: "li\rst.c:14".toList ∧
    readPPDGs ⟨id, fun _ _ => rfl⟩ text ≠
      .ok [((parallelEdges "li\rst.c:14").graphNodes, (parallelEdges "li\rst.c:14").graphEdges)] := by
  have hread : ((PPDG.writeGraphviz (parallelEdges "li\rst.c:14")).map
      fun text => (readPPDGs ⟨id, fun _ _ => rfl⟩ text).isOk) = some false := by
    decide +kernel
  obtain ⟨text, htext, hfails⟩ := Option.map_eq_some_iff.mp hread
  refine ⟨text, htext, by decide, by decide, by decide +kernel, by decide +kernel, ?_⟩
  intro hok
  rw [hok] at hfails
  cases hfails

end Witcher
