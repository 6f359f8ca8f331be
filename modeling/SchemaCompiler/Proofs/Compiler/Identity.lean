import SchemaCompiler.Proofs.Compiler.Consistency

/-!
# What URIs identify

A document is taken up under a URI, and references that lead to that URI lead to the document, if the
URI was not known. A URI that was known as that of a whole document keeps the document it had, even
if another one is given; as that of any other place it is refused.
-/
namespace SchemaCompiler

variable {base : Url} {uri u : String} {place : Location} {schema : Json} {c' : Compiler}

def Url.Leads (base : Url) (reference uri : String) : Prop :=
  ∃ target, base.join reference = .ok target ∧
    ((target.fragment.map Url.decode).getD "").isEmpty = true ∧ target.withoutFragment.toText = uri

theorem Resources.resolve_of_leads {r : Resources} {reference : String}
    (h : base.Leads reference uri) (hp : Assoc.get? uri r.entries = some place) :
    r.resolve reference base = .ok place := by
  obtain ⟨target, hjoin, hfragment, rfl⟩ := h
  unfold resolve
  rw [hjoin]
  dsimp only
  rw [if_pos hfragment, hp]

namespace Compiler

variable {P : Descriptor → Prop} {c : Compiler}

theorem session_documentUri (schema : Json) (uri : Option String) (c : Compiler) :
    (c.documentUri schema uri).2.session = c.session := by
  unfold documentUri
  split <;> rfl

theorem addDocument_of_register {uri : Option String} (hu : c.register schema uri = (.ok u, c')) :
    ∃ url, (c.documentUri schema uri).1 = .ok url ∧
      ran (Resources.addDocument schema url) c.session.resources = (.ok u, c'.session.resources) := by
  have hsession := session_documentUri schema uri c
  unfold Compiler.register at hu
  rcases hd : c.documentUri schema uri with ⟨e | url, c₁⟩
  · rw [hd] at hu
    cases hu
  · rw [hd] at hu hsession
    dsimp only at hu hsession
    rw [hsession] at hu
    split at hu
    · cases hu
    · obtain ⟨hresult, rfl⟩ := Prod.mk.inj hu
      exact ⟨url, rfl, Prod.ext hresult rfl⟩

/-- The place that a document has under the URI it is taken up by: that of before, if the URI was
known, and the whole of the document otherwise. -/
theorem InOrder.get?_register (h : c.InOrder P) {uri : Option String}
    (hu : c.register schema uri = (.ok u, c')) :
    ∃ url : Url, Assoc.get? u c'.session.resources.entries =
        some ((Assoc.get? u c.session.resources.entries).getD ⟨schema, u, "", url⟩) ∧
      ∀ known, Assoc.get? u c.session.resources.entries = some known → known.key = u ++ "#" := by
  obtain ⟨url, -, hadd⟩ := addDocument_of_register hu
  exact ⟨url.withoutFragment, (Resources.get?_addDocument h.resources hadd).2⟩

theorem InOrder.compileUri_new (hP : Admits P) (h : c.InOrder P) (hread : Url.read uri = .ok base)
    (hresolve : c.session.resources.resolve uri base = .ok place)
    (hnew : place.key ∉ c.session.targets.map Prod.fst) {entry : Name × Bool}
    (hc : c.compileUri uri = (.ok entry, c')) :
    ∃ e ∈ c'.session.targets, e.2.place = place ∧ e.2.progress = .done entry.1 := by
  obtain ⟨t, hplace, hpending, htarget⟩ : ∃ t : Target, t.place = place ∧ t.progress = .pending ∧
      c.session.targetFor place =
        (t, { c.session with targets := c.session.targets ++ [(place.key, t)] }) := by
    rcases c.session.targetFor_cases place with ⟨t, hmem, -⟩ | ⟨-, ht⟩
    · exact absurd (List.mem_map_of_mem hmem) hnew
    · exact ht
  have hwork := works_compileTarget (Dialect.keeps_planTo hP h.dialect c.depthBound) t hpending true
    _ (h.starting place).1
  rw [compileUri_eq hread hresolve, htarget] at hc
  generalize ran _ _ = r at hwork hc
  rcases r with ⟨e | f, b⟩
  · cases hc
  · cases hc
    obtain ⟨-, hadvance, -, hdone⟩ := hwork
    have hmem : (place.key, t.place, t.isAsync) ∈ (c.starting place).outlines := by
      simp [Assembly.outlines, Compiler.starting, htarget]
    obtain ⟨e, he, houtline⟩ := List.mem_map.1 (hadvance.outlines.subset hmem)
    simp only [Prod.mk.injEq] at houtline
    exact ⟨e, he, houtline.2.1.trans hplace, hdone e he (houtline.1.trans (by rw [hplace]))⟩

/-- A schema that is new to a compiler, under a URI that is new to it and leads to itself, is what the
validator starts with. -/
theorem InOrder.compile_new (hP : Admits P) (h : c.InOrder P) {v : Validator}
    (hc : c.compile schema = (.ok v, c')) (hnew : Assoc.get? schema.render c.compiled = none)
    (hu : (c.register schema none).1 = .ok u) (hunknown : c.session.resources.contains u = false)
    (hkey : u ++ "#" ∉ c.session.targets.map Prod.fst)
    (hleads : ∀ base, Url.read u = .ok base → base.Leads u u) :
    ∃ e ∈ c'.session.targets, e.2.place.root = schema ∧ e.2.place.pointer = "" ∧
      e.2.progress = .done v.entry := by
  rcases hregister : c.register schema none with ⟨e | u', c₁⟩
  · rw [hregister] at hu
    cases hu
  · rw [hregister] at hu
    obtain rfl : u' = u := Except.ok.inj hu
    obtain ⟨url, hget, -⟩ := h.get?_register hregister
    have hnone : Assoc.get? u' c.session.resources.entries = none := by
      simpa [Resources.contains, Assoc.contains] using hunknown
    rw [hnone, Option.getD_none] at hget
    obtain ⟨h₁, -, -⟩ := h.register schema none
    obtain ⟨resources, n, hafter⟩ := register_snd schema none c
    rw [hregister] at h₁
    have htargets : c₁.session.targets = c.session.targets := by
      rw [hregister] at hafter
      rw [show c₁ = _ from hafter]
    rcases huri : c₁.compileUri u' with ⟨e | entry, c₂⟩
    · simp only [Compiler.compile, Compiler.compileEntry, hnew, hregister, huri] at hc
      cases hc
    · simp only [Compiler.compile, Compiler.compileEntry, hnew, hregister, huri] at hc
      obtain ⟨hlink, rfl⟩ := Prod.mk.inj hc
      obtain ⟨reached, -, hv⟩ := bind_eq_ok.1 hlink
      cases hv
      cases hread : Url.read u' with
      | error fault =>
        rw [Compiler.compileUri, hread] at huri
        cases huri
      | ok base =>
        have hresolve := Resources.resolve_of_leads (hleads base hread) hget
        obtain ⟨e, he, hplace, hdone⟩ := h₁.compileUri_new hP hread hresolve (by
          rw [htargets, Location.key, String.append_empty]
          exact hkey) huri
        exact ⟨e, he, by rw [hplace], by rw [hplace], hdone⟩

/-- Whatever has been asked of a compiler. If it takes up a document and gives a URI, all references
that lead to that URI lead to one place: the whole document, if the URI was not known, and otherwise
the place of before, which has the key of a whole document. If it compiles a schema that is new to
it, under a URI that is new to it, the validator starts with the function of that schema. -/
theorem uri_identifies (o : Options) (requests : List Request) (hr : ∀ r ∈ requests, r.Lawful)
    (schema : Json) :
    (∀ uri u c, (after o requests).addSchema schema uri = (.ok u, c) →
      ∃ place : Location,
        (∀ base reference, Url.Leads base reference u →
          c.session.resources.resolve reference base = .ok place) ∧
        ((after o requests).session.resources.contains u = false →
          place.root = schema ∧ place.document = u ∧ place.pointer = "") ∧
        ∀ known, Assoc.get? u (after o requests).session.resources.entries = some known →
          place = known ∧ known.key = u ++ "#") ∧
    ∀ v c u, (after o requests).compile schema = (.ok v, c) →
      Assoc.get? schema.render (after o requests).compiled = none →
      ((after o requests).register schema none).1 = .ok u →
      (after o requests).session.resources.contains u = false →
      u ++ "#" ∉ (after o requests).session.targets.map Prod.fst →
      (∀ base, Url.read u = .ok base → base.Leads u u) →
      ∃ e ∈ c.session.targets, e.2.place.root = schema ∧ e.2.place.pointer = "" ∧
        e.2.progress = .done v.entry := by
  have horder := inOrder_after admits_isPlain o fun r hmem => (hr r hmem).within
  generalize after o requests = c₀ at horder
  refine ⟨fun uri u c hadd => ?_, fun v c u hc hnew hu hunknown hkey hleads =>
    horder.compile_new admits_isPlain hc hnew hu hunknown hkey hleads⟩
  have hregister : c₀.register schema uri = (.ok u, c) := by
    unfold addSchema at hadd
    rcases hreg : c₀.register schema uri with ⟨e | u', c'⟩
    · rw [hreg] at hadd
      cases hadd
    · rw [hreg] at hadd
      exact hadd
  obtain ⟨url, hget, hknown⟩ := horder.get?_register hregister
  refine ⟨_, fun base reference hl => Resources.resolve_of_leads hl hget, fun hno => ?_,
    fun known hk => ⟨by rw [hk]; rfl, hknown known hk⟩⟩
  have hnone : Assoc.get? u c₀.session.resources.entries = none := by
    simpa [Resources.contains, Assoc.contains] using hno
  rw [hnone]
  exact ⟨rfl, rfl, rfl⟩

/-- A document taken up under a new URI. -/
theorem uri_identifies_of_new :
    ∃ c, (after .standard []).addSchema (.bool false) (some "x:a") = (.ok "x:a", c) ∧
      ∀ base reference, Url.Leads base reference "x:a" →
        ∃ place, c.session.resources.resolve reference base = .ok place ∧
          place.root = .bool false := by
  have hok : (match ((after .standard []).addSchema (.bool false) (some "x:a")).1 with
      | .ok u => u == "x:a"
      | .error _ => false) = true := by decide +kernel
  rcases hadd : (after .standard []).addSchema (.bool false) (some "x:a") with ⟨e | u, c⟩
  · rw [hadd] at hok
    cases hok
  · rw [hadd] at hok
    obtain rfl : u = "x:a" := by simpa using hok
    obtain ⟨place, hresolve, hroot, -⟩ := (uri_identifies .standard [] nofun (.bool false)).1 _ _ c hadd
    exact ⟨c, rfl, fun base reference hl => ⟨place, hresolve base reference hl, (hroot rfl).1⟩⟩

/-- A second document under the URI of a first one is taken up without an error, and the URI goes on
to lead to the first. -/
theorem uri_keeps_first_document :
    let reply := (after .standard [.document (.bool true) (some "x:a")]).addSchema (.bool false)
      (some "x:a")
    reply.1.isOk = true ∧ (Assoc.get? "x:a" reply.2.session.resources.entries).map Location.root =
      some (.bool true) := by
  decide +kernel

end Compiler
end SchemaCompiler
