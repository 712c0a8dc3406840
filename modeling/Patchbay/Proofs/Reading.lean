import Mathlib.Data.List.Forall2
import Patchbay.Proofs.Scanning

/-!
# Documents read back

A document that is written, in one line or indented, is read as the same document. Writing and
reading meet in the tokens of the document: the text is scanned as them, and the pass over them
puts every part of the document in its place.

Three things have to be asked of the document: every part of it denotes a value, every number in
it reads back, and its arrays and objects do not lie too deep inside each other.

What is proved here:
  1. `writes_indented`, `writes_compact`: the text is scanned as the tokens of the document.
  2. `accepted`: the tokens are accepted, and the document is complete behind the last of them.
  3. `ofText?_pretty`, `ofText?_compact`: the document reads back.
-/

namespace Patchbay.Json

namespace Document

mutual
def tokens : Document → List Token
  | .null | .unreadable => [.null]
  | .bool b => [.bool b]
  | .number n => [.number (some n)]
  | .string s => [.string (some s)]
  | .array items => .openArray :: ([.comma].intercalate (itemTokens items) ++ [.closeArray])
  | .object members =>
    .openObject :: ([.comma].intercalate (memberTokens members) ++ [.closeObject])
def itemTokens : List Document → List (List Token)
  | [] => []
  | d :: rest => tokens d :: itemTokens rest
def memberTokens : List (String × Document) → List (List Token)
  | [] => []
  | (k, d) :: rest => (.string (some k) :: .colon :: tokens d) :: memberTokens rest
end

mutual
def numbers : Document → List Number
  | .number n => [n]
  | .array items => itemNumbers items
  | .object members => memberNumbers members
  | _ => []
def itemNumbers : List Document → List Number
  | [] => []
  | d :: rest => numbers d ++ itemNumbers rest
def memberNumbers : List (String × Document) → List Number
  | [] => []
  | (_, d) :: rest => numbers d ++ memberNumbers rest
end

mutual
/-- How many arrays and objects lie inside each other at most. -/
def depth : Document → Nat
  | .array items => itemDepth items + 1
  | .object members => memberDepth members + 1
  | _ => 0
def itemDepth : List Document → Nat
  | [] => 0
  | d :: rest => max (depth d) (itemDepth rest)
def memberDepth : List (String × Document) → Nat
  | [] => 0
  | (_, d) :: rest => max (depth d) (memberDepth rest)
end

/-! ## The text is scanned as the tokens -/

open Token

theorem toList_margin (depth : Nat) : (margin depth).toList = List.replicate (2 * depth) ' ' := by
  rw [margin]
  induction 2 * depth with
  | zero => rfl
  | succ n ih =>
    simp only [String.pushn, Nat.repeat, String.toList_push] at ih ⊢
    rw [ih, List.replicate_succ']

theorem scans_margin (depth : Nat) : Scans (margin depth).toList [] := by
  refine scans_blanks fun c hc => ?_
  rw [toList_margin] at hc
  rw [(List.mem_replicate.1 hc).2]
  rfl

theorem scans_comma : Scans ",\n".toList [.comma] :=
  (scans_token fun _ => rfl : Scans [','] [.comma]).append
    (scans_blank rfl : Scans ['\n'] [])

theorem writes_line {m line : String} {ts : List Token} (hm : Scans m.toList [])
    (h : Writes line.toList ts) : Writes (m ++ line).toList ts := by
  rw [String.toList_append]
  exact hm.append_writes h

/-- Texts with commas between them, with or without blanks behind the commas. -/
theorem writes_separated {sep line : String} {cs : List Char} {lines : List String}
    {ts : List Token} {tss : List (List Token)} (hsep : sep.toList = ',' :: cs)
    (hcomma : Scans (',' :: cs) [.comma]) (h : Writes line.toList ts)
    (hs : List.Forall₂ (fun line ts => Writes line.toList ts) lines tss) :
    Writes (sep.intercalate (line :: lines)).toList ([Token.comma].intercalate (ts :: tss)) := by
  induction hs generalizing line ts with
  | nil => simpa using h
  | cons h' hs ih =>
    rw [String.intercalate_cons_cons, List.intercalate_cons_cons, String.toList_append,
      String.toList_append, hsep]
    exact (h.append_scans (by decide) hcomma).append_writes (ih h')

theorem writes_lines {m line : String} {lines : List String} {ts : List Token}
    {tss : List (List Token)} (hm : Scans m.toList []) (h : Writes line.toList ts)
    (hs : List.Forall₂ (fun line ts => Writes line.toList ts) lines tss) :
    Writes (",\n".intercalate ((line :: lines).map (m ++ ·))).toList
      ([Token.comma].intercalate (ts :: tss)) := by
  rw [List.map_cons]
  refine writes_separated rfl scans_comma (writes_line hm h) ?_
  exact List.forall₂_map_left_iff.2 (hs.imp fun _ _ h' => writes_line hm h')

theorem scans_row {opening closing : String} {c : Char} {cs : List Char} {t t' : Token}
    {lines : List String} {tss : List (List Token)} (ho : Scans opening.toList [t])
    (hclosing : closing.toList = c :: cs) (hstop : continues c = false)
    (hc : Scans (c :: cs) [t'])
    (hs : List.Forall₂ (fun line ts => Writes line.toList ts) lines tss) :
    Scans (opening ++ ",".intercalate lines ++ closing).toList
      (t :: ([Token.comma].intercalate tss ++ [t'])) := by
  rw [String.toList_append, String.toList_append, hclosing, List.append_assoc]
  cases hs with
  | nil => simpa using ho.append hc
  | cons h hs =>
    have hcomma : Scans [','] [.comma] := scans_token fun _ => rfl
    exact ho.append ((writes_separated rfl hcomma h hs).append_scans hstop hc)

theorem scans_block {opening closing : String} {t t' : Token} {lines : List String}
    {tss : List (List Token)} (ho : Scans opening.toList [t]) (hc : Scans closing.toList [t'])
    (depth : Nat) (hs : List.Forall₂ (fun line ts => Writes line.toList ts) lines tss) :
    Scans (block opening closing depth lines).toList
      (t :: ([Token.comma].intercalate tss ++ [t'])) := by
  cases hs with
  | nil =>
    rw [block, List.isEmpty_nil, if_pos rfl, String.toList_append]
    exact ho.append hc
  | @cons line ts lines tss h hs =>
    have hbreak : Scans "\n".toList [] := (scans_blank rfl : Scans ['\n'] [])
    have hlines := writes_lines (scans_margin (depth + 1)) h hs
    have hend : Scans ('\n' :: ((margin depth).toList ++ closing.toList)) [t'] :=
      hbreak.append ((scans_margin depth).append hc)
    have hall := (ho.append hbreak).append (hlines.append_scans (by decide) hend)
    simpa [block] using hall

mutual
theorem writes_compact : ∀ d : Document, (∀ n ∈ d.numbers, n.Legible) →
    Writes d.compact.toList d.tokens
  | .null, _ => (scans_token fun _ => rfl : Scans "null".toList [.null]).writes
  | .unreadable, _ => (scans_token fun _ => rfl : Scans "null".toList [.null]).writes
  | .bool true, _ => (scans_token fun _ => rfl : Scans "true".toList [.bool true]).writes
  | .bool false, _ => (scans_token fun _ => rfl : Scans "false".toList [.bool false]).writes
  | .number n, h => writes_number (h n (List.mem_singleton.2 rfl))
  | .string s, _ => (scans_quoted s).writes
  | .array items, h =>
    (scans_row (scans_token fun _ => rfl) rfl (by decide) (scans_token fun _ => rfl)
      (writes_compactItems items h)).writes
  | .object members, h =>
    (scans_row (scans_token fun _ => rfl) rfl (by decide) (scans_token fun _ => rfl)
      (writes_compactMembers members h)).writes
theorem writes_compactItems : ∀ items : List Document,
    (∀ n ∈ itemNumbers items, n.Legible) →
    List.Forall₂ (fun line ts => Writes line.toList ts) (compactItems items) (itemTokens items)
  | [], _ => .nil
  | d :: rest, h => by
    obtain ⟨hd, hrest⟩ := List.forall_mem_append.1 h
    exact .cons (writes_compact d hd) (writes_compactItems rest hrest)
theorem writes_compactMembers : ∀ members : List (String × Document),
    (∀ n ∈ memberNumbers members, n.Legible) →
    List.Forall₂ (fun line ts => Writes line.toList ts) (compactMembers members)
      (memberTokens members)
  | [], _ => .nil
  | (k, d) :: rest, h => by
    obtain ⟨hd, hrest⟩ := List.forall_mem_append.1 h
    refine .cons ?_ (writes_compactMembers rest hrest)
    have hcolon : Scans ":".toList [.colon] := scans_token fun _ => rfl
    rw [String.toList_append, String.toList_append]
    exact ((scans_quoted k).append hcolon).append_writes (writes_compact d hd)
end

mutual
theorem writes_indented (depth : Nat) : ∀ d : Document, (∀ n ∈ d.numbers, n.Legible) →
    Writes (d.indented depth).toList d.tokens
  | .null, h | .unreadable, h | .bool _, h | .number _, h | .string _, h => writes_compact _ h
  | .array items, h =>
    (scans_block (scans_token fun _ => rfl) (scans_token fun _ => rfl) depth
      (writes_indentedItems (depth + 1) items h)).writes
  | .object members, h =>
    (scans_block (scans_token fun _ => rfl) (scans_token fun _ => rfl) depth
      (writes_indentedMembers (depth + 1) members h)).writes
theorem writes_indentedItems (depth : Nat) : ∀ items : List Document,
    (∀ n ∈ itemNumbers items, n.Legible) →
    List.Forall₂ (fun line ts => Writes line.toList ts) (indentedItems depth items)
      (itemTokens items)
  | [], _ => .nil
  | d :: rest, h => by
    obtain ⟨hd, hrest⟩ := List.forall_mem_append.1 h
    exact .cons (writes_indented depth d hd) (writes_indentedItems depth rest hrest)
theorem writes_indentedMembers (depth : Nat) : ∀ members : List (String × Document),
    (∀ n ∈ memberNumbers members, n.Legible) →
    List.Forall₂ (fun line ts => Writes line.toList ts) (indentedMembers depth members)
      (memberTokens members)
  | [], _ => .nil
  | (k, d) :: rest, h => by
    obtain ⟨hd, hrest⟩ := List.forall_mem_append.1 h
    refine .cons ?_ (writes_indentedMembers depth rest hrest)
    have hcolon : Scans ": ".toList [.colon] :=
      (scans_token fun _ => rfl : Scans [':'] [.colon]).append
        (scans_blank rfl : Scans [' '] [])
    rw [String.toList_append, String.toList_append]
    exact ((scans_quoted k).append hcolon).append_writes (writes_indented depth d hd)
end

/-! ## The tokens are accepted -/

/-- No document starts with the token that ends an array, so where an item or the end is expected,
items are read as where a value is. -/
theorem foldlM_items_itemOrEnd (d : Document) (items : List Document) (ts : List Token)
    (levels : List Level) :
    ([Token.comma].intercalate (itemTokens (d :: items)) ++ ts).foldlM Cursor.step?
        ⟨levels, .itemOrEnd⟩ =
      ([Token.comma].intercalate (itemTokens (d :: items)) ++ ts).foldlM Cursor.step?
        ⟨levels, .value⟩ := by
  have hfirst : ∀ us : List Token, (d.tokens ++ us).foldlM Cursor.step? ⟨levels, .itemOrEnd⟩ =
      (d.tokens ++ us).foldlM Cursor.step? ⟨levels, .value⟩ := by
    intro us
    cases d <;> rfl
  cases items with
  | nil =>
    rw [itemTokens, itemTokens, List.intercalate_singleton]
    exact hfirst ts
  | cons d' items =>
    rw [itemTokens, itemTokens, List.intercalate_cons_cons, List.append_assoc, List.append_assoc]
    exact hfirst _

theorem foldlM_members_memberOrEnd (m : String × Document) (members : List (String × Document))
    (ts : List Token) (levels : List Level) :
    ([Token.comma].intercalate (memberTokens (m :: members)) ++ ts).foldlM Cursor.step?
        ⟨levels, .memberOrEnd⟩ =
      ([Token.comma].intercalate (memberTokens (m :: members)) ++ ts).foldlM Cursor.step?
        ⟨levels, .member⟩ := by
  cases members <;> rfl

theorem isSome_values?_cons {d : Document} {rest : List Document} :
    (values? (d :: rest)).isSome = true ↔ d.isReadable = true ∧ (values? rest).isSome = true := by
  rw [values?, isReadable]
  cases d.value? <;> cases values? rest <;> simp

theorem isSome_memberValues?_cons {k : String} {d : Document}
    {rest : List (String × Document)} : (memberValues? ((k, d) :: rest)).isSome = true ↔
      d.isReadable = true ∧ (memberValues? rest).isSome = true := by
  rw [memberValues?, isReadable]
  cases d.value? <;> cases memberValues? rest <;> simp

theorem members?_reverse (members : List (String × Document)) :
    Cursor.members? (members.map fun m => (some m.1, m.2)).reverse = some members := by
  rw [Cursor.members?, List.reverse_reverse]
  induction members with
  | nil => rfl
  | cons m rest ih =>
    simp only [List.map_cons, List.mapM_cons, ih]
    rfl

/-- Where a value is expected, the tokens of the document bring it to its place. -/
def Accepted (d : Document) : Prop :=
  ∀ levels, d.tokens.foldlM Cursor.step? ⟨levels, .value⟩ = Cursor.place? d levels

theorem accepted_of_token {d : Document} {t : Token} (hd : d.tokens = [t])
    (ht : ∀ levels, Cursor.begin? levels t = Cursor.place? d levels) : Accepted d := by
  intro levels
  rw [hd, List.foldlM_cons]
  show (Cursor.begin? levels t).bind some = _
  rw [ht, Option.bind_fun_some]

/-- The innermost open array takes one item after another. Its items so far are held with the last
one first. -/
theorem foldlM_items {d : Document} {items : List Document} (hd : Accepted d)
    (hitems : ∀ d ∈ items, Accepted d) (done : List Document) (levels : List Level) :
    ([Token.comma].intercalate (itemTokens (d :: items))).foldlM Cursor.step?
        ⟨.items done :: levels, .value⟩ =
      some ⟨.items ((d :: items).reverse ++ done) :: levels, .separator⟩ := by
  induction items generalizing d done with
  | nil =>
    rw [itemTokens, itemTokens, List.intercalate_singleton, hd]
    rfl
  | cons d' items ih =>
    obtain ⟨hd', hitems⟩ := List.forall_mem_cons.1 hitems
    have hrest := ih hd' hitems (d :: done)
    rw [itemTokens] at hrest
    rw [itemTokens, itemTokens, List.intercalate_cons_cons, List.append_assoc,
      List.foldlM_append, hd, List.reverse_cons, List.append_assoc]
    exact hrest

theorem accepted_array {items : List Document} (h : ∀ d ∈ items, Accepted d) :
    Accepted (.array items) := by
  intro levels
  cases items with
  | nil => exact Option.bind_fun_some _
  | cons d items =>
    obtain ⟨hd, hitems⟩ := List.forall_mem_cons.1 h
    have hfold := foldlM_items hd hitems [] levels
    rw [List.append_nil] at hfold
    rw [tokens]
    show (_ ++ [Token.closeArray]).foldlM Cursor.step? ⟨.items [] :: levels, .itemOrEnd⟩ = _
    rw [foldlM_items_itemOrEnd, List.foldlM_append, hfold]
    show (Cursor.place? (.array (d :: items).reverse.reverse) levels).bind some = _
    rw [List.reverse_reverse, Option.bind_fun_some]

theorem foldlM_members {k : String} {d : Document} {members : List (String × Document)}
    (hd : Accepted d) (hmembers : ∀ m ∈ members, Accepted m.2)
    (done : List (Option String × Document)) (levels : List Level) :
    ([Token.comma].intercalate (memberTokens ((k, d) :: members))).foldlM Cursor.step?
        ⟨.members done :: levels, .member⟩ =
      some ⟨.members ((((k, d) :: members).map fun m => (some m.1, m.2)).reverse ++ done) :: levels,
        .separator⟩ := by
  induction members generalizing k d done with
  | nil =>
    rw [memberTokens, memberTokens, List.intercalate_singleton]
    show d.tokens.foldlM Cursor.step? ⟨.member done (some k) :: levels, .value⟩ = _
    rw [hd]
    rfl
  | cons m members ih =>
    obtain ⟨k', d'⟩ := m
    obtain ⟨hd', hmembers⟩ := List.forall_mem_cons.1 hmembers
    have hrest := ih (k := k') hd' hmembers ((some k, d) :: done)
    rw [memberTokens] at hrest
    rw [memberTokens, memberTokens, List.intercalate_cons_cons, List.append_assoc,
      List.map_cons, List.reverse_cons, List.append_assoc]
    show (d.tokens ++ _).foldlM Cursor.step? ⟨.member done (some k) :: levels, .value⟩ = _
    rw [List.foldlM_append, hd]
    exact hrest

theorem accepted_object {members : List (String × Document)} (h : ∀ m ∈ members, Accepted m.2) :
    Accepted (.object members) := by
  intro levels
  cases members with
  | nil => exact Option.bind_fun_some _
  | cons m members =>
    obtain ⟨k, d⟩ := m
    obtain ⟨hd, hmembers⟩ := List.forall_mem_cons.1 h
    have hfold := foldlM_members (k := k) hd hmembers [] levels
    rw [List.append_nil] at hfold
    rw [tokens]
    show (_ ++ [Token.closeObject]).foldlM Cursor.step? ⟨.members [] :: levels, .memberOrEnd⟩ = _
    rw [foldlM_members_memberOrEnd, List.foldlM_append, hfold]
    show (Cursor.place? ((Cursor.members? _).elim .unreadable .object) levels).bind some = _
    rw [members?_reverse, Option.bind_fun_some]
    rfl

mutual
/-- A document of which every part denotes a value is accepted. -/
theorem accepted : ∀ d : Document, d.isReadable = true → Accepted d
  | .null, _ => accepted_of_token rfl fun _ => rfl
  | .bool _, _ => accepted_of_token rfl fun _ => rfl
  | .number _, _ => accepted_of_token rfl fun _ => rfl
  | .string _, _ => accepted_of_token rfl fun _ => rfl
  | .array items, h => by
    rw [isReadable, value?, Option.isSome_map] at h
    exact accepted_array (accepted_items items h)
  | .object members, h => by
    rw [isReadable, value?, Option.isSome_map] at h
    exact accepted_object (accepted_members members h)
theorem accepted_items : ∀ items : List Document, (values? items).isSome = true →
    ∀ d ∈ items, Accepted d
  | [], _ => List.forall_mem_nil _
  | d :: rest, h => by
    obtain ⟨hd, hrest⟩ := isSome_values?_cons.1 h
    exact List.forall_mem_cons.2 ⟨accepted d hd, accepted_items rest hrest⟩
theorem accepted_members : ∀ members : List (String × Document),
    (memberValues? members).isSome = true → ∀ m ∈ members, Accepted m.2
  | [], _ => List.forall_mem_nil _
  | (k, d) :: rest, h => by
    obtain ⟨hd, hrest⟩ := isSome_memberValues?_cons.1 h
    exact List.forall_mem_cons.2 ⟨accepted d hd, accepted_members rest hrest⟩
end

theorem ofTokens?_tokens {d : Document} (h : d.isReadable = true) :
    ofTokens? d.tokens = some d := by
  rw [ofTokens?, Cursor.start, accepted d h []]
  rfl

/-! ## Nesting -/

mutual
theorem within_eq_self : ∀ (d : Document) {limit : Nat}, d.depth ≤ limit → d.within limit = d
  | .null, _, _ | .bool _, _, _ | .number _, _, _ | .string _, _, _ | .unreadable, _, _ => rfl
  | .array items, 0, h => absurd h (Nat.not_succ_le_zero _)
  | .array items, limit + 1, h => by
    rw [within, if_neg (Nat.succ_ne_zero limit), Nat.add_sub_cancel,
      withinItems_eq_self items (Nat.le_of_succ_le_succ h)]
  | .object members, 0, h => absurd h (Nat.not_succ_le_zero _)
  | .object members, limit + 1, h => by
    rw [within, if_neg (Nat.succ_ne_zero limit), Nat.add_sub_cancel,
      withinMembers_eq_self members (Nat.le_of_succ_le_succ h)]
theorem withinItems_eq_self : ∀ (items : List Document) {limit : Nat}, itemDepth items ≤ limit →
    withinItems limit items = items
  | [], _, _ => rfl
  | d :: rest, limit, h => by
    obtain ⟨hd, hrest⟩ := Nat.max_le.1 h
    rw [withinItems, within_eq_self d hd, withinItems_eq_self rest hrest]
theorem withinMembers_eq_self : ∀ (members : List (String × Document)) {limit : Nat},
    memberDepth members ≤ limit → withinMembers limit members = members
  | [], _, _ => rfl
  | (k, d) :: rest, limit, h => by
    obtain ⟨hd, hrest⟩ := Nat.max_le.1 h
    rw [withinMembers, within_eq_self d hd, withinMembers_eq_self rest hrest]
end

/-- A text that is scanned as the tokens of a document reads back, if every part of the document
denotes a value and it is not nested too deeply. -/
theorem ofText?_eq {d : Document} {text : String} (hwrites : Writes text.toList d.tokens)
    (hreadable : d.isReadable = true) (hdepth : d.depth ≤ depthLimit) : ofText? text = some d := by
  rw [ofText?, hwrites.scan?, Option.bind_some, ofTokens?_tokens hreadable, Option.map_some,
    within_eq_self d hdepth]

/-- A document that is written in indented form reads back, if its numbers do and if it is not
nested too deeply. -/
theorem ofText?_pretty {d : Document} (hreadable : d.isReadable = true)
    (hnumbers : ∀ n ∈ d.numbers, n.Legible) (hdepth : d.depth ≤ depthLimit) :
    ofText? d.pretty = some d :=
  ofText?_eq (writes_indented 0 d hnumbers) hreadable hdepth

/-- And so does a document that is written in one line. -/
theorem ofText?_compact {d : Document} (hreadable : d.isReadable = true)
    (hnumbers : ∀ n ∈ d.numbers, n.Legible) (hdepth : d.depth ≤ depthLimit) :
    ofText? d.compact = some d :=
  ofText?_eq (writes_compact d hnumbers) hreadable hdepth

end Document

end Patchbay.Json
