import DesignTokens.Proofs.Identifier.Chains

/-!
# What the initializers of a theme read

A getter of a theme asks for the mode of the system, which only composable code may do, so nothing
but getters may read it. A member is declared with a getter where its canonical path has both
variants; whether a reference is written in an initializer is decided by the member that it is
written in. `ComposeTheme.reads_getter_iff` says when an initializer reads a getter: a token without
the other variant was written as one reference to a token of such a path
(`ComposeTheme.brand_reads_getter`).
-/

namespace DesignTokens.ComposeTheme

open Reference (Padded RefersAlone)

/-! ### References in expressions -/

section Expression

variable {dictionary : Dictionary} {context : Context} {kind : Kind} {t r : Token}

/-- A token that was written as one reference is one if references are on: the qualified name of its
referent, with blanks around it. -/
theorem exists_padded_expression (on : context.outputReferences) (h : RefersAlone dictionary t r) :
    ∃ text, expression dictionary context kind t = .reference text ∧
      Padded text.toList (memberReference context r).toList := by
  obtain ⟨text, rewritten, padded⟩ := h.exists_padded (memberReference context)
  obtain ⟨raw, -, written, single, -, -⟩ := h
  have asked : context.outputReferences && t.expression?.any Reference.isSingle := by
    simp [on, written, single]
  refine ⟨text, ?_, padded⟩
  rw [expression, if_pos asked, rewritten]

theorem literal_ne_reference (kind : Kind) (t : Token) (text : String) :
    literal kind t ≠ .reference text := by
  unfold literal
  split
  · simp
  · split
    · split <;> simp
    · simp

theorem refersAlone_of_expression {text : String}
    (h : expression dictionary context kind t = .reference text) :
    context.outputReferences ∧ ∃ r, RefersAlone dictionary t r ∧
      Padded text.toList (memberReference context r).toList := by
  by_cases asked : context.outputReferences && t.expression?.any Reference.isSingle
  · obtain ⟨on, single⟩ := Bool.and_eq_true_iff.1 asked
    cases rewritten : Reference.resolve? dictionary (memberReference context) t with
    | none =>
      rw [expression, if_pos asked, rewritten] at h
      exact absurd h (literal_ne_reference kind t text)
    | some name =>
      obtain ⟨r, hr⟩ := Reference.refersAlone_of_resolve? single rewritten
      obtain ⟨text', same, padded⟩ := exists_padded_expression on hr
      obtain rfl : text' = text := ThemeExpression.reference.inj (same.symm.trans h)
      exact ⟨on, r, hr, padded⟩
  · rw [expression, if_neg asked] at h
    exact absurd h (literal_ne_reference kind t text)

end Expression

/-! ### Kinds of members -/

section Member

variable {dictionary : Dictionary} {context : Context} {leaf : Leaf}

theorem body_eq_initializer_iff {value : ThemeExpression} :
    (member dictionary context leaf).body = .initializer value ↔
      ∃ t, leaf.pair.variants = [t] ∧
        expression dictionary context leaf.pair.preferLight.kind t = value := by
  rw [member]
  cases leaf.pair <;> simp

theorem exists_body_eq_getter_iff :
    (∃ light dark, (member dictionary context leaf).body = .getter light dark) ↔
      ∃ light dark, leaf.pair = .both light dark := by
  rw [member]
  cases leaf.pair <;> simp

end Member

/-! ### Members that are read -/

/-- An initializer of the theme reads a member that is declared with a getter: the text of its
reference is the name of that member, with nothing but blanks around it. -/
def ReadsGetter (theme : ComposeTheme) : Prop :=
  ∃ names reader text, (names, reader) ∈ theme.root.declared ThemeMember.name ∧
    reader.body = .initializer (.reference text) ∧
    ∃ others getter light dark, (others, getter) ∈ theme.root.declared ThemeMember.name ∧
      getter.body = .getter light dark ∧
      Padded text.toList (".".intercalate others).toList

theorem mem_declared_iff {dictionary : Dictionary} {context : Context} {names : List String}
    {m : ThemeMember} :
    (names, m) ∈ (ofDictionary dictionary context).root.declared ThemeMember.name ↔
      ∃ leaf : Leaf, leaf.path ≠ [] ∧
        (Groups.ofTokens context.convention dictionary.tokens).get? leaf.path = some leaf.pair ∧
        names = context.rootName defaultRoot :: Identifier.chain Identifier.kotlin leaf.path ∧
        m = member dictionary context leaf :=
  Container.mem_declared_ofGroups Identifier.kotlin (member dictionary context) ThemeMember.name
    (name_member dictionary context)

section Reads

variable {dictionary : Dictionary} {context : Context}

/-- A token without the other variant reads a getter where it was written as one reference to a
token with the chain of a path with both variants. -/
theorem readsGetter_of_refersAlone (on : context.outputReferences) {path other : List String}
    {pair : Pair} {t r light dark : Token} (hpath : path ≠ [])
    (found : (Groups.ofTokens context.convention dictionary.tokens).get? path = some pair)
    (variants : pair.variants = [t]) (hr : RefersAlone dictionary t r) (hother : other ≠ [])
    (both : (Groups.ofTokens context.convention dictionary.tokens).get? other =
      some (.both light dark))
    (same : Identifier.chain Identifier.kotlin (r.canonicalPath context.convention) =
      Identifier.chain Identifier.kotlin other) :
    (ofDictionary dictionary context).ReadsGetter := by
  obtain ⟨text, written, padded⟩ := exists_padded_expression on hr
  have sides : ∃ l d, (⟨other, .both light dark⟩ : Leaf).pair = .both l d := ⟨light, dark, rfl⟩
  obtain ⟨l, d, got⟩ := exists_body_eq_getter_iff.2 sides
  refine ⟨_, _, text, mem_declared_iff.2 ⟨⟨path, pair⟩, hpath, found, rfl, rfl⟩,
    body_eq_initializer_iff.2 ⟨t, variants, written⟩, _, _, l, d,
    mem_declared_iff.2 ⟨⟨other, .both light dark⟩, hother, both, rfl, rfl⟩, got, ?_⟩
  rw [← same]
  exact padded

end Reads

/-! ### Main statement -/

/-- **Initializers that read getters.** There is one exactly if, with references on, a token without
the other variant was written as one reference to a token whose chain is that of a canonical path
with both variants. -/
theorem reads_getter_iff (dictionary : Dictionary) (context : Context) :
    let groups := Groups.ofTokens context.convention dictionary.tokens
    (ofDictionary dictionary context).ReadsGetter ↔
      context.outputReferences ∧
      ∃ path pair t r, path ≠ [] ∧ groups.get? path = some pair ∧ pair.variants = [t] ∧
        RefersAlone dictionary t r ∧
        ∃ other light dark, other ≠ [] ∧ groups.get? other = some (.both light dark) ∧
          Identifier.chain Identifier.kotlin (r.canonicalPath context.convention) =
            Identifier.chain Identifier.kotlin other := by
  intro groups
  constructor
  · rintro ⟨names, reader, text, hreader, initialized, others, getter, light, dark, hgetter, got,
      name⟩
    obtain ⟨leaf, hpath, found, -, rfl⟩ := mem_declared_iff.1 hreader
    obtain ⟨other, hother, found', rfl, rfl⟩ := mem_declared_iff.1 hgetter
    obtain ⟨t, variants, written⟩ := body_eq_initializer_iff.1 initialized
    obtain ⟨on, r, hr, padded⟩ := refersAlone_of_expression written
    obtain ⟨l, d, both⟩ := exists_body_eq_getter_iff.1 ⟨light, dark, got⟩
    exact ⟨on, leaf.path, leaf.pair, t, r, hpath, found, variants, hr, other.path, l, d, hother,
      both ▸ found', Identifier.chain_eq_of_padded padded name⟩
  · rintro ⟨on, path, pair, t, r, hpath, found, variants, hr, other, light, dark, hother, both,
      same⟩
    exact readsGetter_of_refersAlone on hpath found variants hr hother both same

/-- Colors: a page in both modes, and a brand color that was written as the page. -/
def brandOfPage : Dictionary :=
  let tokens := [.ofValue ["color", "page"] "page" (.string "#ffffff"),
    .ofValue ["color", "dark", "page"] "dark-page" (.string "#000000"),
    (Token.ofValue ["color", "brand"] "brand" (.string "#ffffff")).writtenAs "\x7bcolor.page\x7d"]
  .ofTokens (tokens.map fun t => { t with typeName := some "color" })

def declarations (theme : ComposeTheme) : List (List String × String) :=
  (theme.root.declared ThemeMember.name).map fun (names, m) =>
    (names, bodyText "" m.name (if m.isColor then ": ComposeColor" else "") m.body)

/-- The page is composable, and the initializer of the brand color reads it. -/
theorem brand_reads_getter :
    let context := { destination := "", outputReferences := true : Context }
    declarations (ofDictionary brandOfPage context) =
      [(["Theme", "Color", "brand"], "val brand: ComposeColor = Theme.Color.page\n"),
        (["Theme", "Color", "page"], "val page: ComposeColor\n" ++
          "    @Composable get() = if (isSystemInDarkTheme()) " ++
          "\"#000000\".toColor() else \"#ffffff\".toColor()\n")] ∧
      (ofDictionary brandOfPage context).ReadsGetter := by
  refine ⟨by decide +kernel, ?_⟩
  have single : RefersAlone brandOfPage brandOfPage.tokens[2] brandOfPage.tokens[0] :=
    ⟨"\x7bcolor.page\x7d", "color.page".toList, rfl, by decide, by decide, rfl⟩
  have brand : (Groups.ofTokens .standard brandOfPage.tokens).get? ["color", "brand"] =
      some (.light brandOfPage.tokens[2]) := rfl
  have page : (Groups.ofTokens .standard brandOfPage.tokens).get? ["color", "page"] =
      some (.both brandOfPage.tokens[0] brandOfPage.tokens[1]) := rfl
  exact readsGetter_of_refersAlone rfl (by decide) brand rfl single (by decide) page rfl

end DesignTokens.ComposeTheme
