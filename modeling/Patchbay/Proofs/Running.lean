import Patchbay.Proofs.SavedFormat
import Patchbay.Proofs.Service
import Patchbay.Runner.Run

/-!
# Running a saved graph

A run of a node reads a file with a graph and writes it back. Whatever comes of the execution, what
is written continues what was read: no graph is lost. If nothing can be loaded, nothing is written.

What is proved here:
  1. `Studio.convergent_registry`: executions of studio nodes come to an end.
  2. `Runner.Site.run_runWithin_of_not_loads`, `Runner.Site.run_runWithin_of_loads`: what a run
     reads and writes.
  3. `Runner.never_loses_graph`: what becomes of the file.
-/

namespace Patchbay

open Json Lossless

namespace Studio

/-- What is executed on demand computes its outputs at once, and leaves its state as it is. -/
theorem convergent_registry : registry.Convergent where
  total d context hd hmode := by
    obtain ⟨id, state, inputs⟩ := context
    rw [of?_registry] at hd
    cases hd
    cases state with
    | imageGeneration | videoGeneration | textGeneration => cases hmode
    | _ => exact ⟨_, rfl⟩
  stable d context outputs hd hmode h := by
    obtain ⟨id, state, inputs⟩ := context
    rw [of?_registry] at hd
    cases hd
    cases state with
    | imageGeneration | videoGeneration | textGeneration => cases hmode
    | _ => exact h

end Studio

/-! ## What a provider leaves alone -/

section

variable {ω β : Type} {f : ω → β}

/-- Whoever carries requests leaves this as it is. -/
structure Http.Transport.Keeps (t : Http.Transport (StateM ω)) (f : ω → β) : Prop where
  send : ∀ request x, f ((t.send request).run x).2 = f x
  pause : ∀ milliseconds x, f ((t.pause milliseconds).run x).2 = f x

theorem Http.Transport.Keeps.send_agent {t : Http.Transport (StateM ω)} (h : t.Keeps f)
    (draft : Http.Draft) (x : ω) : f ((t.agent.send draft).run x).2 = f x := by
  unfold Http.Transport.agent
  dsimp only
  split
  · rfl
  · rename_i r _
    rw [← h.send r x, StateT.run_bind]
    obtain ⟨response, x'⟩ := (t.send r).run x
    cases response <;> rfl

theorem Http.Transport.Keeps.run {t : Http.Transport (StateM ω)} (h : t.Keeps f) {α : Type}
    (dialogue : Http.Dialogue α) (x : ω) : f ((dialogue.run t).run x).2 = f x := by
  induction dialogue generalizing x with
  | done result => rfl
  | send draft next ih => exact (ih _ _).trans (h.send_agent draft x)
  | pause milliseconds next ih => exact (ih _).trans (h.pause milliseconds x)

variable {σ : Type} [NodeState σ] {p : Generation.Provider (StateM ω)}

theorem Session.keeps_stepTask (hp : ∀ request x, f ((p.generate request).run x).2 = f x)
    (s : Session σ) (t : Task σ) (x : ω) : f ((s.stepTask p t).run x).2 = f x := by
  unfold Session.stepTask
  split
  · rfl
  · split
    · rfl
    · exact hp _ x
    · rfl

theorem Session.keeps_work (hp : ∀ request x, f ((p.generate request).run x).2 = f x)
    (fuel : Nat) (s : Session σ) (x : ω) : f ((work p fuel s).run x).2 = f x := by
  induction fuel generalizing s x with
  | zero => rfl
  | succ fuel ih =>
    rw [work]
    split
    · exact (ih _ _).trans (s.keeps_stepTask hp _ x)
    · rfl

theorem Session.keeps_executeWithin
    (hp : ∀ request x, f ((p.generate request).run x).2 = f x) (fuel : Nat) (s : Session σ)
    (id : NodeId) (x : ω) : f ((executeWithin p fuel s id).run x).2 = f x :=
  keeps_work hp fuel _ x

theorem Session.keeps_drain (hp : ∀ request x, f ((p.generate request).run x).2 = f x)
    (fuel : Nat) (s : Session σ) (x : ω) : f ((drain p fuel s).run x).2 = f x := by
  induction fuel generalizing s x with
  | zero => rfl
  | succ fuel ih =>
    rw [drain]
    split
    · rename_i next hnext
      refine (ih _ _).trans ?_
      unfold step? at hnext
      split at hnext
      · cases hnext
        exact s.keeps_stepTask hp _ x
      · cases hnext
        rfl
      · cases hnext
    · rfl

end

/-! ## Sites -/

namespace Runner

/-- A place with files, an environment and a service. -/
structure Site (ω : Type) where
  files : String → Option String
  environment : String → Option String
  service : ω

namespace Site

variable {ω : Type}

/-- The site with this text in a file. -/
def withFile (d : Site ω) (name text : String) : Site ω :=
  { d with files := Function.update d.files name (some text) }

def transport (t : Http.Transport (StateM ω)) : Http.Transport (StateM (Site ω)) where
  send request := fun d =>
    let (response, service) := (t.send request).run d.service
    (response, { d with service := service })
  pause milliseconds := fun d =>
    let ((), service) := (t.pause milliseconds).run d.service
    ((), { d with service := service })

/-- A run at a site, where every file can be read and written. -/
def host (t : Http.Transport (StateM ω)) : Host (StateM (Site ω)) where
  transport := transport t
  lookup? name := fun d => (d.environment name, d)
  isThere name := fun d => ((d.files name).isSome, d)
  contents? name := fun d => (d.files name, d)
  store name text := fun d => (true, d.withFile name text)

/-- The settings that a run finds. -/
def settings (d : Site ω) (file : Option String) : Except Settings.Problem Settings :=
  let written := ((file.bind d.files).map Settings.ofText).getD (.ok {})
  written.map (·.overridden (d.environment Settings.urlVariable) (d.environment Settings.keyVariable))

/-- A run finds these settings, and a file with this graph in it that can be restored. -/
structure Loads (d : Site ω) (a : Arguments) (settings : Settings) (old : Snapshot StudioNode)
    (e : Engine StudioNode) : Prop where
  found : d.settings a.config = .ok settings
  graph : ∃ text, d.files a.graph = some text ∧ Snapshot.ofText text = .ok old
  restored : (Engine.new Studio.registry settings.policy).restore old = .ok e

variable {t : Http.Transport (StateM ω)} {d d' : Site ω} {a : Arguments} {fuel : Nat}
  {e e' : Engine StudioNode} {ending : Option Ending}

theorem run_loadSettings (file : Option String) :
    (loadSettings (host t) file).run d = (d.settings file, d) := by
  unfold loadSettings settings
  cases file with
  | none => rfl
  | some name =>
    simp only [Option.bind_some]
    cases hfile : d.files name with
    | none => simp [host, hfile, StateT.run, bind, StateT.bind, pure, StateT.pure]
    | some text => simp [host, hfile, StateT.run, bind, StateT.bind, pure, StateT.pure]

theorem run_runWithin_of_not_loads (h : ∀ settings old e, ¬ d.Loads a settings old e) :
    (runWithin fuel (host t) a).run d = (.failure, d) := by
  rw [runWithin, StateT.run_bind, run_loadSettings]
  cases hfound : d.settings a.config with
  | error problem => rfl
  | ok settings =>
    cases hfile : d.files a.graph with
    | none => simp [host, hfile, StateT.run, bind, StateT.bind, pure, StateT.pure]
    | some text =>
      cases hload : load settings.policy text with
      | error err =>
        simp [host, hfile, hload, StateT.run, bind, StateT.bind, pure, StateT.pure]
      | ok e =>
        cases hold : (Snapshot.ofText text : Except Error (Snapshot StudioNode)) with
        | error err => simp [load, hold, bind, Except.bind] at hload
        | ok old =>
          rw [load, hold] at hload
          exact absurd ⟨hfound, ⟨text, hfile, hold⟩, hload⟩ (h settings old e)

/-- Where something can be loaded, a run executes the node and writes the file. -/
theorem run_runWithin_of_loads {settings : Settings} {old : Snapshot StudioNode}
    (h : d.Loads a settings old e)
    (hexecute : (executeWithin fuel (host t) settings.backend e a.node).run d =
      ((e', ending), d')) :
    (runWithin fuel (host t) a).run d = (⟨exitOf ending, e'.log.map eventLine⟩,
      if a.save then d'.withFile a.graph e'.snapshot.text else d') := by
  obtain ⟨text, hfile, hold⟩ := h.graph
  have hload : load settings.policy text = .ok e := by
    rw [load, hold]
    exact h.restored
  rw [runWithin, StateT.run_bind, run_loadSettings, h.found]
  have hcontents : (host t).contents? a.graph = fun d => (d.files a.graph, d) := rfl
  have hstore : ∀ text, (host t).store a.graph text = fun d => (true, d.withFile a.graph text) :=
    fun _ => rfl
  have hexecute' : executeWithin fuel (host t) settings.backend e a.node d =
      ((e', ending), d') := hexecute
  cases a.save <;>
    simp [hcontents, hstore, hfile, hload, hexecute', StateT.run, bind, StateT.bind, pure,
      StateT.pure]

theorem keeps_transport (t : Http.Transport (StateM ω)) : (transport t).Keeps files :=
  ⟨fun _ _ => rfl, fun _ _ => rfl⟩

end Site

namespace Site

variable {ω : Type} {t : Http.Transport (StateM ω)} {d : Site ω} {b : Backend}
  {e : Engine StudioNode} {node : NodeId}

/-- An execution at a site is one in the foreground, and then the queue is worked off. -/
theorem run_executeWithin (fuel : Nat) : (executeWithin fuel (host t) b e node).run d =
    let p := b.client.provider (host t).transport
    let x := (Session.executeWithin p fuel { engine := e } node).run d
    let y := (Session.drain p fuel x.1.1).run x.2
    ((y.1.engine, x.1.2), y.2) := rfl

/-- One that has come to its end is not changed by more patience. -/
theorem executeWithin_of_le {n m : Nat} (hle : n ≤ m)
    {x : (Session StudioNode × Option Ending) × Site ω} {y : Session StudioNode × Site ω}
    (hexecute : (Session.executeWithin (b.client.provider (host t).transport) n { engine := e }
      node).run d = x)
    (hdrain : (Session.drain (b.client.provider (host t).transport) n x.1.1).run x.2 = y)
    (hcurrent : x.1.1.current = none)
    (hnone : y.1.step? (b.client.provider (host t).transport) = none) :
    (executeWithin m (host t) b e node).run d = (executeWithin n (host t) b e node).run d := by
  subst hexecute hdrain
  simp only [run_executeWithin]
  rw [Session.executeWithin_of_le hle hcurrent,
    Session.loops_drain.run_of_le (fun _ => rfl) hle hnone]

end Site

/-! ## What becomes of the file -/

/-- What is saved of the second engine reads back as a graph that continues the one which the first
engine was restored from, if the text reads back as the document that it writes. -/
def Saves (old : Snapshot StudioNode) (e e' : Engine StudioNode) : Prop :=
  Document.ofText? e'.snapshot.text = some (encode e'.snapshot) →
    ∃ new, Snapshot.ofText e'.snapshot.text = .ok new ∧
      new.Continues Studio.registry (e.Wrote e') old

variable {ω : Type} {d : Site ω} {a : Arguments} {settings : Settings} {old : Snapshot StudioNode}
  {e : Engine StudioNode}

theorem Site.Loads.expressed (h : d.Loads a settings old e) : ∀ n ∈ old.nodes, n.Expressed := by
  obtain ⟨text, -, hold⟩ := h.graph
  exact Snapshot.expressed_ofText Studio.writable_of_fits hold

theorem Site.Loads.exists_execution (h : d.Loads a settings old e)
    (t : Http.Transport (StateM ω)) : ∃ patience e' ending d',
      (∀ fuel ≥ patience, (executeWithin fuel (Site.host t) settings.backend e a.node).run d =
        ((e', some ending), d')) ∧
      d'.files = d.files ∧ e'.isIdle = true ∧ Saves old e e' := by
  obtain ⟨patience, s₁, s₂, ending, d₁, d₂, hrun, hidle, hsecure⟩ :=
    Session.exists_execution (p := settings.backend.client.provider (Site.host t).transport)
      Studio.steady_registry Studio.convergent_registry Studio.expressive_registry rfl h.restored
      h.expressed a.node d
  -- The three goals: the run itself, the files, and what is saved.
  refine ⟨patience, s₂.engine, ending, d₂, fun fuel hfuel => ?_, ?_, hidle, fun htext => ?_⟩
  · obtain ⟨hexecute, hdrain⟩ := hrun fuel hfuel
    simp only [Site.run_executeWithin, hexecute, hdrain]
  · obtain ⟨hexecute, hdrain⟩ := hrun patience le_rfl
    have hprovider : ∀ request d, (((settings.backend.client.provider (Site.host t).transport).generate
        request).run d).2.files = d.files := fun request d =>
      (Site.keeps_transport t).run _ d
    have hafter := Session.keeps_drain hprovider patience s₁ d₁
    have hbefore := Session.keeps_executeWithin hprovider patience { engine := e } a.node d
    rw [hdrain] at hafter
    rw [hexecute] at hbefore
    exact hafter.trans hbefore
  · obtain ⟨past, -, hsecure⟩ := hsecure.secure
    exact hsecure.saves Studio.kindsSteady_registry h.restored hidle htext

/-- A run never loses a graph. If there is none that can be restored, nothing is written. Otherwise
the node is executed, and whatever ending that has, it and all that follows from it come to an end;
the file is written then, unless that is not wanted, and its graph continues the one that was there.

That is so in whatever order the tasks go on: in every order they come to an end, at which no run is
counted any more, and wherever no run is counted what is saved continues what was there. -/
theorem never_loses_graph (t : Http.Transport (StateM ω)) (a : Arguments) (d : Site ω) :
    ((∀ settings old e, ¬ d.Loads a settings old e) → ∀ fuel,
      (runWithin fuel (Site.host t) a).run d = (.failure, d)) ∧
    ∀ settings old e, d.Loads a settings old e →
      (∃ patience e' ending d', (∀ fuel ≥ patience,
          (executeWithin fuel (Site.host t) settings.backend e a.node).run d =
            ((e', some ending), d') ∧
          (runWithin fuel (Site.host t) a).run d =
            (⟨exitOf (some ending), e'.log.map eventLine⟩,
              if a.save then d'.withFile a.graph e'.snapshot.text else d')) ∧
        d'.files = d.files ∧ e'.isIdle = true ∧ Saves old e e') ∧
      ∀ w, World.Leads e a.node w → Acc (fun w' w => w.Serves w') w ∧
        ((∀ w', ¬ w.Serves w') → w.engine.isIdle = true) ∧
        (w.engine.isIdle = true → Saves old e w.engine) := by
  refine ⟨fun hnone fuel => Site.run_runWithin_of_not_loads hnone, fun settings old e h =>
    ⟨?_, fun w hleads => ?_⟩⟩
  · obtain ⟨patience, e', ending, d', hexecute, hfiles, hidle, hsaves⟩ := h.exists_execution t
    exact ⟨patience, e', ending, d', fun fuel hfuel =>
      ⟨hexecute fuel hfuel, Site.run_runWithin_of_loads h (hexecute fuel hfuel)⟩, hfiles, hidle,
      hsaves⟩
  · have hsecure := World.Secure.leads Studio.steady_registry Studio.expressive_registry
      h.restored h.expressed hleads
    exact ⟨hsecure.acc Studio.steady_registry Studio.convergent_registry, hsecure.isIdle,
      fun hidle htext => hsecure.secure.saves Studio.kindsSteady_registry h.restored hidle htext⟩

/-! ## A run without a service -/

/-- A text and a node that makes images of it. -/
def sketch : Snapshot StudioNode where
  nodes := [.new "t" (.textInput { text := "a lake" }), .new "g" (.imageGeneration {})]
  connections := [⟨⟨"t", "output"⟩, ⟨"g", "prompt"⟩⟩]

def unreachable : Http.Transport (StateM Unit) := ⟨fun _ => pure none, fun _ => pure ()⟩

/-- There is one file, and the sketch is in it. -/
def studio : Site Unit :=
  ⟨fun name => if name = "sketch.json" then some sketch.text else none, fun _ => none, ()⟩

/-- The engine that the sketch is restored into. -/
def resumed : Engine StudioNode :=
  ((Engine.new Studio.registry {}).restore sketch).toOption.getD (.new Studio.registry {})

theorem restore_sketch : (Engine.new Studio.registry {}).restore sketch = .ok resumed := by
  have hok : ((Engine.new Studio.registry {}).restore sketch).isOk = true := by decide +kernel
  unfold resumed
  cases h : (Engine.new Studio.registry {}).restore sketch with
  | error err =>
    rw [h] at hok
    cases hok
  | ok e => rfl

theorem loads_sketch (a : Arguments) (hgraph : a.graph = "sketch.json") (hconfig : a.config = none) :
    studio.Loads a {} sketch resumed where
  found := by
    rw [hconfig]
    rfl
  graph := ⟨sketch.text, by rw [hgraph]; rfl, Snapshot.ofText_text (by decide +kernel)⟩
  restored := restore_sketch

/-- What is left of a run with this patience. -/
def left (fuel : Nat) : (Engine StudioNode × Option Ending) × Site Unit :=
  (executeWithin fuel (Site.host unreachable) {} resumed "g").run studio

theorem left_of_le {fuel : Nat} (h : 60 ≤ fuel) : left fuel = left 60 :=
  Site.executeWithin_of_le h rfl rfl (Option.isNone_iff_eq_none.1 (by decide +kernel))
    (Option.isNone_iff_eq_none.1 (by decide +kernel))

/-- Where there is no file, none is written. The service cannot be reached, so the execution of the
sketch fails; but the graph is written, with what was executed before. -/
theorem never_loses_graph_unreachable :
    (∀ fuel, (runWithin fuel (Site.host unreachable) ⟨"lost.json", "g", none, true⟩).run studio =
      (.failure, studio)) ∧
    ∃ patience, ∀ fuel ≥ patience, ∃ report d' text new,
      (runWithin fuel (Site.host unreachable) ⟨"sketch.json", "g", none, true⟩).run studio =
        (report, d') ∧ report.exit = 1 ∧ d'.files "sketch.json" = some text ∧
      Snapshot.ofText text = .ok new ∧
      new.Continues Studio.registry (resumed.Wrote (left 60).1.1) sketch := by
  have hlost := (never_loses_graph unreachable ⟨"lost.json", "g", none, true⟩ studio).1
    fun settings old e h => by
      obtain ⟨text, htext, -⟩ := h.graph
      cases htext
  have hloads := loads_sketch ⟨"sketch.json", "g", none, true⟩ rfl rfl
  obtain ⟨patience, e', ending, d', hrun, -, -, hsaves⟩ :=
    ((never_loses_graph unreachable ⟨"sketch.json", "g", none, true⟩ studio).2 {} sketch resumed
      hloads).1
  have hleft : left 60 = ((e', some ending), d') :=
    (left_of_le (Nat.le_max_left 60 patience)).symm.trans (hrun _ (Nat.le_max_right 60 patience)).1
  have hengine : (left 60).1.1 = e' := by rw [hleft]
  have hending : (left 60).1.2 = some ending := by rw [hleft]
  obtain ⟨hlegible, hexit⟩ : (left 60).1.1.snapshot.Legible ∧ exitOf (left 60).1.2 = 1 := by
    decide +kernel
  rw [hengine] at hlegible
  rw [hending] at hexit
  obtain ⟨new, hnew, hcontinues⟩ := hsaves
    (Document.ofText?_pretty e'.snapshot.isReadable_encode hlegible.numbers hlegible.depth)
  rw [← hengine] at hcontinues
  refine ⟨hlost, patience, fun fuel hfuel => ⟨_, _, _, new, (hrun fuel hfuel).2, hexit, ?_, hnew,
    hcontinues⟩⟩
  show Function.update d'.files "sketch.json" (some e'.snapshot.text) "sketch.json" = _
  exact Function.update_self "sketch.json" (some e'.snapshot.text) d'.files

end Runner

end Patchbay
