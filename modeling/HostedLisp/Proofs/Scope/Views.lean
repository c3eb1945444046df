import HostedLisp.Host.Builtin
import HostedLisp.Host.Sample
import HostedLisp.Host.Table
import HostedLisp.Primitive.Library
import HostedLisp.Proofs.Scope.Resolution
import HostedLisp.Proofs.Value.Equality

namespace HostedLisp

/-- What is seen of a name in the scope at `i` if the one at `j` decides its meaning with `b`. -/
structure Shows [HostClasses] (env : Setting) (m : Machine) (i : Nat) (name : String) (j : Nat)
    (b : Binding) : Prop where
  evaluated : ∀ span place, place.getD m.scope = i →
    (env.eval (.identifier name span) place m).1 = .ok b.value
  lookup : m.scopes.lookup i name = .ok b
  item : (m.scopes.require i (.str name)).map Binding.value = .ok b.value
  get : ∀ default, m.scopes.get i (.str name) default = .ok b.value
  contains : m.scopes.contains i (.str name) = true
  owner : m.scopes.owner? i name = some j
  flat : ∀ v, (name, v) ∈ (m.scopes.chain i).flatten ↔ v = b.value

/-- What is seen of a name in the scope at `i` if it has no meaning there. -/
structure Hides [HostClasses] (env : Setting) (m : Machine) (i : Nat) (name : String) : Prop where
  evaluated : ∀ span place, place.getD m.scope = i →
    (env.eval (.identifier name span) place m).1 = .failed (.undefinedIdentifier name)
  lookup : m.scopes.lookup i name = .error (.undefinedIdentifier name)
  item : m.scopes.require i (.str name) = .error (.undefinedIdentifier name)
  get : ∀ default, m.scopes.get i (.str name) default = .ok default
  contains : m.scopes.contains i (.str name) = false
  owner : m.scopes.owner? i name = none
  flat : ∀ v, (name, v) ∉ (m.scopes.chain i).flatten

namespace Scopes

section Texts

variable (s : Scopes) (i : Nat) (name : String)

theorem seek_str : s.seek i (.str name) = .ok ((s.chain i).lookup? name) := rfl

theorem require_str [HostClasses] : s.require i (.str name) = s.lookup i name := by
  rw [require, seek_str, lookup]
  cases (s.chain i).lookup? name <;> rfl

theorem get_str (default : Value) :
    s.get i (.str name) default =
      .ok ((((s.chain i).lookup? name).map Binding.value).getD default) := by
  rw [get, seek_str]
  rfl

theorem contains_str : s.contains i (.str name) = ((s.chain i).lookup? name).isSome := by
  rw [contains, seek_str]
  rfl

end Texts

end Scopes

section Lookup

variable (env : Setting) {m : Machine} {i j : Nat} {name : String} {b : Binding}

theorem eval_identifier (m : Machine) (name : String) (span : Span) (place : Option Nat) :
    (env.eval (.identifier name span) place m).1 =
      .ofExcept ((m.scopes.lookup (place.getD m.scope) name).map Binding.value) := rfl

variable [HostClasses]

theorem shows_of_resolves (hm : m.scopes.Distinct) (h : m.scopes.Resolves i name j b) :
    Shows env m i name j b := by
  have hb := h.lookup? hm
  have hlookup : m.scopes.lookup i name = .ok b := by rw [Scopes.lookup, hb]
  refine ⟨?_, hlookup, ?_, ?_, ?_, ((Scopes.resolves_iff hm).mp h).1, ?_⟩
  · intro span place hplace
    rw [eval_identifier, hplace, hlookup]
    rfl
  · rw [Scopes.require_str, hlookup]
    rfl
  · intro default
    rw [Scopes.get_str, hb]
    rfl
  · rw [Scopes.contains_str, hb]
    rfl
  · intro v
    rw [Chain.mem_flatten_iff fun bs hbs => hm.nodup_of_mem_chain hbs, hb]
    simp [eq_comm]

theorem hides_of_unbound (hm : m.scopes.Distinct) (h : m.scopes.Unbound i name) :
    Hides env m i name := by
  have hnone := h.lookup?
  have hlookup : m.scopes.lookup i name = .error (.undefinedIdentifier name) := by
    rw [Scopes.lookup, hnone]
  refine ⟨?_, hlookup, ?_, ?_, ?_, Scopes.owner?_eq_none_iff.mpr h, ?_⟩
  · intro span place hplace
    rw [eval_identifier, hplace, hlookup]
    rfl
  · rw [Scopes.require_str, hlookup]
  · intro default
    rw [Scopes.get_str, hnone]
    rfl
  · rw [Scopes.contains_str, hnone]
    rfl
  · intro v
    rw [Chain.mem_flatten_iff fun bs hbs => hm.nodup_of_mem_chain hbs, hnone]
    simp

end Lookup

namespace Value

section Overriding

variable {entries context : List (Value × Value)} {key value k v : Value}

theorem atom?_eq_text_iff {name : String} : k.atom? = some (.text name) ↔ k = .str name := by
  cases k <;> simp [atom?, magnitude?]

theorem str_same_iff {name : String} : (str name).same k = true ↔ k = .str name := by
  rw [same_iff_of_atom? (a := .text name) rfl, atom?_eq_text_iff]

theorem mem_insertEntry_iff (hentries : DistinctKeys entries)
    (hkey : ∀ e ∈ entries, e.1.same key = true → e.1 = key) :
    (k, v) ∈ insertEntry key value entries ↔
      (k = key ∧ v = value) ∨ ((k, v) ∈ entries ∧ k.same key = false) := by
  induction entries with
  | nil => simp [insertEntry]
  | cons first rest ih =>
      obtain ⟨l, w⟩ := first
      obtain ⟨hfirst, hrest⟩ := List.pairwise_cons.mp hentries
      obtain ⟨hl, hkey⟩ := List.forall_mem_cons.mp hkey
      rw [insertEntry]
      by_cases hsame : l.same key = true
      · obtain rfl : l = key := hl hsame
        have hother : (k, v) ∈ rest → k.same l = false := by
          intro hmem
          by_contra hk
          have hkl : k = l := hkey (k, v) hmem (Bool.not_eq_false _ ▸ hk)
          have hapart := hfirst (k, v) hmem
          rw [hkl, hsame] at hapart
          cases hapart
        have hself : k = l → k.same l ≠ false := by
          rintro rfl
          simp [hsame]
        simp only [hsame, if_true, List.mem_cons, Prod.mk.injEq]
        grind
      · have hapart : l.same key = false := Bool.eq_false_iff.mpr hsame
        have hself : k = l → k.same key = false := fun h => h ▸ hapart
        simp only [if_neg hsame, List.mem_cons, Prod.mk.injEq, ih hrest hkey]
        grind

theorem mem_foldl_insertEntry_iff (hentries : DistinctKeys entries)
    (hcontext : DistinctKeys context)
    (hkeys : ∀ e ∈ entries, ∀ e' ∈ context, e.1.same e'.1 = true → e.1 = e'.1) :
    (k, v) ∈ context.foldl (fun names e => insertEntry e.1 e.2 names) entries ↔
      (k, v) ∈ context ∨ ((k, v) ∈ entries ∧ ∀ e ∈ context, k.same e.1 = false) := by
  induction context generalizing entries with
  | nil => simp
  | cons first rest ih =>
      obtain ⟨hfirst, hrest⟩ := List.pairwise_cons.mp hcontext
      have hkey : ∀ e ∈ entries, e.1.same first.1 = true → e.1 = first.1 := fun e he =>
        hkeys e he first List.mem_cons_self
      have hstep : ∀ e ∈ insertEntry first.1 first.2 entries, ∀ e' ∈ rest,
          e.1.same e'.1 = true → e.1 = e'.1 := by
        intro e he e' he' hsame
        rcases (mem_insertEntry he).1 with hnew | ⟨w, hw⟩
        · rw [hnew, hfirst e' he'] at hsame
          cases hsame
        · exact hkeys (e.1, w) hw e' (List.mem_cons_of_mem _ he') hsame
      have hhidden : k = first.1 → ∀ e ∈ rest, k.same e.1 = false := fun h => h ▸ hfirst
      rw [List.foldl_cons, ih (distinctKeys_insertEntry hentries _ _) hrest hstep,
        mem_insertEntry_iff hentries hkey, List.mem_cons, List.forall_mem_cons, Prod.ext_iff]
      grind

end Overriding

end Value

/-- Whether `names` is the data of a template in the current scope under a context: what each bound
name shows, but for the keys of the context, which have their values in it. -/
structure TemplateNames (m : Machine) (context names : List (Value × Value)) : Prop where
  distinct : Value.DistinctKeys names
  mem_iff : ∀ k v, (k, v) ∈ names ↔
    (∃ w, (k, w) ∈ context ∧ v = Template.data w) ∨
      ((∀ w, (k, w) ∉ context) ∧ ∃ name j b, k = .str name ∧
        m.scopes.Resolves m.scope name j b ∧ v = Template.data (m.store.settle b.value))

section Template

variable {m : Machine} {context : List (Value × Value)}

theorem dataEntries_eq_map (entries : List (Value × Value)) :
    Template.dataEntries entries = entries.map fun e => (e.1, Template.data e.2) := by
  induction entries with
  | nil => rfl
  | cons e rest ih => rw [Template.dataEntries, ih, List.map_cons]

theorem distinctKeys_namesInScope {flat : List (String × Value)}
    (hflat : (flat.map Prod.fst).Nodup) : Value.DistinctKeys (Primitive.namesInScope flat) := by
  refine List.pairwise_map.mpr ((List.pairwise_map.mp hflat).imp fun {e e'} hne => ?_)
  refine Bool.eq_false_iff.mpr fun hsame => hne ?_
  exact (Value.str.inj (Value.str_same_iff.mp hsame)).symm

/-- What the primitive sees of the scopes. -/
def Machine.visible (m : Machine) : List (String × Value) :=
  (m.scopes.chain m.scope).flatten.map fun e => (e.1, m.store.settle e.2)

theorem mem_namesInScope_iff (hm : m.scopes.Distinct) {k v : Value} :
    (k, v) ∈ Primitive.namesInScope m.visible ↔ ∃ name j b, k = .str name ∧
      m.scopes.Resolves m.scope name j b ∧ v = Template.data (m.store.settle b.value) := by
  simp only [Primitive.namesInScope, Machine.visible, List.map_map, List.mem_map, Prod.exists,
    Function.comp_apply, Prod.mk.injEq]
  constructor
  · rintro ⟨name, w, hmem, rfl, rfl⟩
    obtain ⟨j, b, hb, rfl⟩ := (Scopes.mem_flatten_iff hm).mp hmem
    exact ⟨name, j, b, rfl, hb, rfl⟩
  · rintro ⟨name, j, b, rfl, hb, rfl⟩
    exact ⟨name, b.value, (Scopes.mem_flatten_iff hm).mpr ⟨j, b, hb, rfl⟩, rfl, rfl⟩

theorem templateNames_foldl (hm : m.scopes.Distinct) (hcontext : Value.DistinctKeys context) :
    TemplateNames m context ((Template.dataEntries context).foldl
      (fun names e => Value.insertEntry e.1 e.2 names) (Primitive.namesInScope m.visible)) := by
  have hvisible : Value.DistinctKeys (Primitive.namesInScope m.visible) := by
    refine distinctKeys_namesInScope ?_
    rw [Machine.visible, List.map_map]
    exact Chain.nodup_flatten _
  have hdata : Value.DistinctKeys (Template.dataEntries context) := by
    rw [dataEntries_eq_map]
    exact List.pairwise_map.mpr hcontext
  have hmem : ∀ k v, (k, v) ∈ Template.dataEntries context ↔
      ∃ w, (k, w) ∈ context ∧ v = Template.data w := by
    intro k v
    rw [dataEntries_eq_map]
    simp [eq_comm]
  have hkeys : ∀ e ∈ Primitive.namesInScope m.visible, ∀ e' ∈ Template.dataEntries context,
      e.1.same e'.1 = true → e.1 = e'.1 := by
    intro e he e' _ hsame
    obtain ⟨b, -, rfl⟩ := List.mem_map.mp he
    exact (Value.str_same_iff.mp hsame).symm
  refine ⟨Value.distinctKeys_foldl_insertEntry hvisible _, fun k v => ?_⟩
  rw [Value.mem_foldl_insertEntry_iff hvisible hdata hkeys, hmem, mem_namesInScope_iff hm]
  refine or_congr_right ⟨?_, ?_⟩
  · rintro ⟨⟨name, j, b, rfl, hb, hv⟩, hfree⟩
    refine ⟨fun w hw => ?_, name, j, b, rfl, hb, hv⟩
    have hsame := hfree (.str name, Template.data w) ((hmem _ _).mpr ⟨w, hw, rfl⟩)
    rw [Value.str_same_iff.mpr rfl] at hsame
    cases hsame
  · rintro ⟨hfree, name, j, b, rfl, hb, hv⟩
    refine ⟨⟨name, j, b, rfl, hb, hv⟩, fun e he => Bool.eq_false_iff.mpr fun hsame => ?_⟩
    obtain ⟨w, hw, -⟩ := (hmem e.1 e.2).mp he
    exact hfree w (Value.str_same_iff.mp hsame ▸ hw)

end Template

namespace Setting

section Any

variable (env : Setting) (c : Catalogue) {m k : Machine}

theorem perform_eval_of_ok {fuel : Nat} {x : Node} {v : Value}
    (hx : Run.evaluation none (env.dispatch fuel x) m = (.ok v, k)) (next : Value → Action) :
    env.perform (fuel + 1) (.eval x next) m = env.perform fuel (next (k.store.settle v)) k := by
  change Run.bind (Run.evaluation none (env.dispatch fuel x)) _ m = _
  rw [Run.bind, hx]
  rfl

variable [HostClasses]

theorem perform_renderOver (fuel : Nat) (template : String) (names : List (Value × Value)) :
    env.perform (fuel + 2) (Primitive.renderOver c (.str template) names) m =
      Run.ofEffect (do return .str (← Template.render c template names)) m := by
  let text : Effect Value := do return .str (← Template.render c template names)
  change Run.bind (Run.ofEffect text) _ m = Run.ofEffect text m
  have htext : text = Effect.bind (Template.render c template names)
    fun t => Effect.pure (.str t) := rfl
  rw [Run.bind, Run.ofEffect, htext, Effect.bind]
  cases Template.render c template names m.store with
  | mk r s => cases r <;> rfl

/-- A template with one parameter is rendered over the names that are visible after the template
was evaluated. -/
theorem perform_render_one (hk : k.scopes.Distinct) {fuel : Nat} {head x : Node} {span : Span}
    {v : Value} {template : String}
    (hx : Run.evaluation none (env.dispatch (fuel + 3) x) m = (.ok v, k))
    (hv : k.store.settle v = .str template) :
    ∃ names, TemplateNames k [] names ∧
      env.perform (fuel + 4) (Primitive.render c ⟨head, [x], span⟩) m =
        Run.ofEffect (do return .str (← Template.render c template names)) k := by
  refine ⟨_, templateNames_foldl hk .nil, ?_⟩
  change env.perform (fuel + 3 + 1) (.eval x _) m = _
  rw [env.perform_eval_of_ok hx, hv]
  exact env.perform_renderOver c fuel template _

theorem perform_render_two (hk : k.scopes.Distinct) {fuel : Nat} {head x y : Node} {span : Span}
    {l : Machine} {v w : Value} {template : String} {context : List (Value × Value)}
    (hx : Run.evaluation none (env.dispatch (fuel + 4) x) m = (.ok v, k))
    (hv : k.store.settle v = .str template)
    (hy : Run.evaluation none (env.dispatch (fuel + 2) y) k = (.ok w, l))
    (hw : l.store.settle w = .map context) (hcontext : Value.DistinctKeys context) :
    ∃ names, TemplateNames k context names ∧
      env.perform (fuel + 5) (Primitive.render c ⟨head, [x, y], span⟩) m =
        Run.ofEffect (do return .str (← Template.render c template names)) l := by
  refine ⟨_, templateNames_foldl hk hcontext, ?_⟩
  change env.perform (fuel + 4 + 1) (.eval x _) m = _
  rw [env.perform_eval_of_ok hx, hv]
  change env.perform (fuel + 2 + 1) (.eval y _) k = _
  rw [env.perform_eval_of_ok hy, hw]
  exact env.perform_renderOver c fuel template _

/-- In a tree of scopes that bind no name twice, every name has either one meaning, that of its
innermost binding, which all views show, or none, which all views show. The flat list of a scope has
no other names and has none twice, and the data of a template is that of the names in the current
scope, but for the keys of its context. -/
theorem views_agree (m : Machine) (hm : m.scopes.Distinct) :
    (∀ i name j b, m.scopes.Resolves i name j b → Shows env m i name j b) ∧
      (∀ i name, m.scopes.Unbound i name → Hides env m i name) ∧
      (∀ i name, (∃ j b, m.scopes.Resolves i name j b) ∨ m.scopes.Unbound i name) ∧
      (∀ i, ((m.scopes.chain i).flatten.map Prod.fst).Nodup ∧
        ∀ e ∈ (m.scopes.chain i).flatten, ∃ j b, m.scopes.Resolves i e.1 j b ∧ e.2 = b.value) ∧
      (∀ n fuel head x span v template,
        Run.evaluation none (env.dispatch (fuel + 3) x) n = (.ok v, m) →
        m.store.settle v = .str template →
        ∃ names, TemplateNames m [] names ∧
          env.perform (fuel + 4) (Primitive.render c ⟨head, [x], span⟩) n =
            Run.ofEffect (do return .str (← Template.render c template names)) m) ∧
      ∀ n l fuel head x y span v w template context,
        Run.evaluation none (env.dispatch (fuel + 4) x) n = (.ok v, m) →
        m.store.settle v = .str template →
        Run.evaluation none (env.dispatch (fuel + 2) y) m = (.ok w, l) →
        l.store.settle w = .map context → Value.DistinctKeys context →
        ∃ names, TemplateNames m context names ∧
          env.perform (fuel + 5) (Primitive.render c ⟨head, [x, y], span⟩) n =
            Run.ofEffect (do return .str (← Template.render c template names)) l := by
  refine ⟨?shown, ?hidden, ?all, ?flat, ?one, ?two⟩
  case shown => exact fun i name j b h => shows_of_resolves env hm h
  case hidden => exact fun i name h => hides_of_unbound env hm h
  case all => exact Scopes.resolves_or_unbound hm
  case flat =>
    intro i
    refine ⟨Chain.nodup_flatten _, fun e he => ?_⟩
    obtain ⟨j, b, hb, hv⟩ := (Scopes.mem_flatten_iff hm).mp he
    exact ⟨j, b, hb, hv.symm⟩
  case one => exact fun n fuel head x span v template => env.perform_render_one c hm
  case two =>
    exact fun n l fuel head x y span v w template context => env.perform_render_two c hm

end Any

open scoped Sample

/-- A chain of three scopes where a name is bound to null inside of a number, and the context hides
another one. -/
theorem views_agree_of_shadowed_names :
    let c : Catalogue := Builtin.catalogue
    let env : Setting := ⟨Table.host, Primitive.library c⟩
    let inner : Binding := ⟨"x", some .str, .null⟩
    let context : List (Value × Value) := [(.str "y", .int 3)]
    let scopes : Scopes := ⟨[⟨none, [⟨"x", none, .int 1⟩, ⟨"page", none, .map context⟩]⟩,
      ⟨some 0, [inner, ⟨"y", none, .int 2⟩]⟩, ⟨some 1, []⟩]⟩
    let x : Node := .literal (.string "plain") .absent
    let y : Node := .identifier "page" .absent
    let m : Machine :=
      { Machine.initial with scopes := scopes, scope := 2, current := some (.code x) }
    Shows env m 2 "x" 1 inner ∧ Hides env m 2 "z" ∧
      ∃ names, (.str "x", .null) ∈ names ∧ (.str "y", .int 3) ∈ names ∧
        (.str "y", .int 2) ∉ names ∧
        env.perform 5 (Primitive.render c ⟨y, [x, y], .absent⟩) m =
          Run.ofEffect (do return .str (← Template.render c "plain" names))
            { m with current := some (.code y) } := by
  intro c env inner context scopes x y m
  have hm : m.scopes.Distinct := by
    intro i
    rcases i with _ | _ | _ | i <;> simp [Scopes.own, Bindings.names, m, scopes, inner]
  have hpath : m.scopes.path 2 = [2, 1, 0] := by simp [Scopes.path, m, scopes]
  have hx : m.scopes.Resolves 2 "x" 1 inner :=
    ⟨⟨[2], [0], hpath, by simp [Scopes.own, Bindings.names, m, scopes]⟩, List.mem_cons_self, rfl⟩
  have hpage : m.scopes.Resolves 2 "page" 0 ⟨"page", none, .map context⟩ :=
    ⟨⟨[2, 1], [], hpath, by simp [Scopes.own, Bindings.names, m, scopes, inner]⟩,
      List.mem_cons_of_mem _ List.mem_cons_self, rfl⟩
  have hz : m.scopes.Unbound 2 "z" := by
    simp [Scopes.Unbound, hpath, Scopes.own, Bindings.names, m, scopes, inner]
  obtain ⟨hshown, hhidden, -, -, -, htwo⟩ := views_agree env c m hm
  have htemplate : Run.evaluation none (env.dispatch 4 x) m = (.ok (.str "plain"), m) := rfl
  have hcontext : Run.evaluation none (env.dispatch 2 y) m =
      (.ok (.map context), { m with current := some (.code y) }) := by
    change (Outcome.ofExcept ((m.scopes.lookup 2 "page").map Binding.value), _) = _
    rw [(hshown 2 "page" 0 _ hpage).lookup]
    rfl
  obtain ⟨names, ⟨-, hnames⟩, hrender⟩ := htwo m _ 0 y x y .absent _ _ "plain" context htemplate rfl
    hcontext rfl (List.pairwise_singleton _ _)
  refine ⟨hshown 2 "x" 1 inner hx, hhidden 2 "z" hz, names, ?_, ?_, ?_, hrender⟩
  · refine (hnames _ _).mpr (.inr ⟨?_, "x", 1, inner, rfl, hx, rfl⟩)
    simp [context]
  · exact (hnames _ _).mpr (.inl ⟨.int 3, List.mem_cons_self, rfl⟩)
  · rw [hnames]
    simp [context, Template.data]

end Setting

end HostedLisp
