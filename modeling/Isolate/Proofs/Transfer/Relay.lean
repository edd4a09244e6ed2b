import Isolate.Proofs.Session.Remote
import Isolate.Proofs.Transfer.Course
import Isolate.Proofs.Transfer.Siblings

/-!
# Copies of copies

A copy that goes on to a third context is what a copy made directly would be.
Two renamings make one, and stripping and attribution done twice are done once.
Only the environment of a function is found in two ways: by its name where names
travel along, and otherwise by the globals that the first copy was given.  Both
ways find the same functions, because no other upvalue of a copy holds the
globals.
-/

namespace Isolate

theorem Value.rename_rename (value : Value) (first second : Handle → Handle) :
    (value.rename first).rename second = value.rename (second ∘ first) := by
  cases value <;> rfl

/-- What a chunk keeps of a copy is what it kept of the original. -/
theorem Prototype.kept_attributedTo (strip : Bool) (name : String)
    (proto : Prototype) :
    (((proto.kept strip).attributedTo name).kept strip).attributedTo name =
      (proto.kept strip).attributedTo name := by
  cases strip with
  | true =>
    change ((proto.stripped.attributedTo name).stripped).attributedTo name = _
    rw [stripped_attributedTo, stripped_stripped]
    rfl
  | false => exact attributedTo_attributedTo name name proto

namespace Context

variable {source middle middle' dest c d : Context}
  {settings : TransferSettings} {root : Value}
  {first second rename : Handle → Handle} {handle : Handle}

/-! ## The environment of a function -/

/-- The first upvalue of a function is its environment. -/
def HasEnvironment (ctx : Context) (function : Value) : Prop :=
  ∃ name value, (ctx.upvalues function)[0]? = some (name, value) ∧
    ctx.bindsGlobals name value = true

/-- The first upvalue of a function is bound to the globals. -/
def ReachesGlobals (ctx : Context) (function : Value) : Prop :=
  ∃ name, (ctx.upvalues function)[0]? = some (name, ctx.globalsValue)

/-- The name of an upvalue of a copy. -/
def keptName (settings : TransferSettings) (name : String) : String :=
  if settings.stripDebug then "" else name

theorem getD_upvalueName_kept (settings : TransferSettings)
    (proto : Prototype) (i : Nat) :
    ((((proto.kept settings.stripDebug).attributedTo
      settings.chunkName).upvalueName i).getD "") =
      keptName settings ((proto.upvalueName i).getD "") := by
  simp only [Prototype.upvalueName, Prototype.attributedTo_upvalues,
    Prototype.kept, keptName]
  cases settings.stripDebug with
  | true =>
    rw [if_pos rfl, if_pos rfl, Prototype.stripped_upvalues, Array.getElem?_map]
    cases proto.upvalues[i]? <;> rfl
  | false => rfl

section Copied

variable (h : source.Faithful middle middle' settings root first)
  (hsource : source.WellFormed) (hroot : source.Names root)
  (hmiddle : middle.WellFormed) (hmiddle' : middle'.WellFormed)
  (hglobals : middle'.globals = middle.globals)

section

include h hsource hroot hmiddle'

/-- The upvalues of a copied function. -/
theorem Faithful.upvalues_rename
    (hfunction : source.Travels root (.function handle)) {i : Nat}
    {name : String} {value : Value}
    (hupvalue : (source.upvalues (.function handle))[i]? = some (name, value)) :
    (middle'.upvalues (.function (first handle)))[i]? =
      some (keptName settings name,
        if i = 0 ∧ source.bindsGlobals name value = true then
          middle.globalsValue else value.rename first) := by
  obtain ⟨closure, hclosure⟩ := hsource.names_of_travels hroot hfunction
  obtain ⟨copied, hcopied, hproto, -, hcells⟩ :=
    h.functions handle closure hfunction hclosure
  obtain ⟨cell, hcell, -, hheld⟩ := hcells i name value hupvalue
  obtain ⟨-, -, -, hname⟩ := (hsource.upvalues_getElem? hclosure).1 hupvalue
  refine (hmiddle'.upvalues_getElem? hcopied).2 ⟨cell, hcell, hheld, ?_⟩
  rw [hproto, hname, getD_upvalueName_kept]

/-- A copied function has no upvalue that the original does not have. -/
theorem Faithful.exists_upvalue
    (hfunction : source.Travels root (.function handle)) {i : Nat}
    {upvalue : String × Value}
    (hupvalue : (middle'.upvalues (.function (first handle)))[i]? =
      some upvalue) :
    ∃ name value, (source.upvalues (.function handle))[i]? =
      some (name, value) := by
  obtain ⟨closure, hclosure⟩ := hsource.names_of_travels hroot hfunction
  obtain ⟨copied, hcopied, -, hsize, -⟩ :=
    h.functions handle closure hfunction hclosure
  have hi : i < (source.upvalues (.function handle)).length := by
    rw [hsource.length_upvalues hclosure, ← hsize,
      ← hmiddle'.length_upvalues hcopied]
    exact (List.getElem?_eq_some_iff.1 hupvalue).1
  exact ⟨_, _, List.getElem?_eq_getElem hi⟩

end

include h hmiddle hglobals

/-- The copy of a value is never the table of the globals. -/
theorem Faithful.rename_ne_globals {value : Value}
    (hvalue : source.Travels root value) :
    value.rename first ≠ middle'.globalsValue := by
  intro heq
  cases value with
  | table handle =>
    have hsame : first handle = middle'.globals := Value.table.inj heq
    refine h.fresh _ handle hvalue rfl ?_
    rw [hsame, hglobals]
    exact live_globals hmiddle
  | _ => cases heq

/-- What a copy holds in the place of the environment is found to be the
environment, by name or by the globals of its context, and nothing else is. -/
theorem Faithful.bindsGlobals_rename
    (hfunction : source.Travels root (.function handle))
    {name : String} {value : Value}
    (hupvalue : (source.upvalues (.function handle))[0]? = some (name, value)) :
    middle'.bindsGlobals (keptName settings name)
        (if source.bindsGlobals name value = true then middle.globalsValue
          else value.rename first) = source.bindsGlobals name value := by
  have hsame : middle.globalsValue = middle'.globalsValue :=
    congrArg Value.table hglobals.symm
  split
  · next hbinds =>
    rw [hbinds, hsame, keptName]
    simp only [bindsGlobals, Bool.or_eq_true, Bool.and_eq_true,
      decide_eq_true_eq, and_true] at hbinds ⊢
    split
    · exact Or.inr rfl
    · exact hbinds.imp id And.left
  · next hplace =>
    have hother := h.rename_ne_globals hmiddle hglobals
      (.captured hfunction hupvalue fun hbinds => hplace hbinds.2)
    have hname : ¬keptName settings name = environmentName := by
      rw [keptName]
      split
      · decide
      · exact fun heq =>
          hplace (by rw [bindsGlobals, decide_eq_true heq, Bool.true_or])
    rw [Bool.eq_false_iff.2 hplace, bindsGlobals, decide_eq_false hname,
      decide_eq_false hother, Bool.and_false, Bool.or_false]

include hsource hroot hmiddle'

/-- A function has an environment in one context exactly if its copy has one. -/
theorem Faithful.hasEnvironment_iff
    (hfunction : source.Travels root (.function handle)) :
    source.HasEnvironment (.function handle) ↔
      middle'.HasEnvironment (.function (first handle)) := by
  constructor
  · rintro ⟨name, value, hupvalue, hbinds⟩
    refine ⟨_, _, h.upvalues_rename hsource hroot hmiddle' hfunction
      hupvalue, ?_⟩
    have hfound := h.bindsGlobals_rename hmiddle hglobals hfunction hupvalue
    simpa only [true_and, hbinds] using hfound
  · rintro ⟨name', value', hupvalue', hbinds'⟩
    obtain ⟨name, value, hupvalue⟩ :=
      h.exists_upvalue hsource hroot hmiddle' hfunction hupvalue'
    refine ⟨name, value, hupvalue, ?_⟩
    have hfound := h.bindsGlobals_rename hmiddle hglobals hfunction hupvalue
    have hcopy := h.upvalues_rename hsource hroot hmiddle' hfunction hupvalue
    simp only [true_and] at hcopy
    cases hupvalue'.symm.trans hcopy
    exact hfound.symm.trans hbinds'

/-- The first upvalue of a copy is bound to the globals exactly if the function
has an environment. -/
theorem Faithful.reachesGlobals_iff
    (hfunction : source.Travels root (.function handle)) :
    source.HasEnvironment (.function handle) ↔
      middle'.ReachesGlobals (.function (first handle)) := by
  constructor
  · rintro ⟨name, value, hupvalue, hbinds⟩
    have hcopy := h.upvalues_rename hsource hroot hmiddle' hfunction hupvalue
    rw [if_pos ⟨rfl, hbinds⟩, globalsValue, ← hglobals] at hcopy
    exact ⟨_, hcopy⟩
  · rintro ⟨name', hupvalue'⟩
    obtain ⟨name, value, hupvalue⟩ :=
      h.exists_upvalue hsource hroot hmiddle' hfunction hupvalue'
    refine ⟨name, value, hupvalue, ?_⟩
    have hcopy := h.upvalues_rename hsource hroot hmiddle' hfunction hupvalue
    by_contra hplace
    have hnot : ¬((0 : Nat) = 0 ∧ source.bindsGlobals name value = true) :=
      fun hbinds =>
      hplace hbinds.2
    rw [if_neg hnot, hupvalue'] at hcopy
    exact h.rename_ne_globals hmiddle hglobals
      (.captured hfunction hupvalue hnot)
      (congrArg Prod.snd (Option.some.inj hcopy)).symm

/-- What travels has a copy that travels on. -/
theorem Faithful.travels_rename {value : Value}
    (hvalue : source.Travels root value) :
    middle'.Travels (root.rename first) (value.rename first) := by
  induction hvalue with
  | root => exact .root
  | @key parent table key value hparent htable hentry ih =>
    obtain ⟨copied, hcopied, hentries⟩ := h.tables parent table hparent htable
    rw [← key.toValue_rename]
    exact .key ih hcopied
      ((hentries _ _).2 ⟨key, value, hentry, key.toValue_rename first, rfl⟩)
  | @value parent table key value hparent htable hentry ih =>
    obtain ⟨copied, hcopied, hentries⟩ := h.tables parent table hparent htable
    exact .value ih hcopied
      ((hentries _ _).2 ⟨key, value, hentry, key.toValue_rename first, rfl⟩)
  | @captured parent i name value hparent hupvalue hplace ih =>
    have hcopy := h.upvalues_rename hsource hroot hmiddle' hparent hupvalue
    rw [if_neg hplace] at hcopy
    refine .captured ih hcopy fun ⟨hi, hbinds⟩ => hplace ⟨hi, ?_⟩
    subst hi
    have hfound := h.bindsGlobals_rename hmiddle hglobals hparent hupvalue
    rw [if_neg fun hbinds' => hplace ⟨rfl, hbinds'⟩] at hfound
    exact hfound.symm.trans hbinds

/-! ## Two hops -/

variable (h' : middle'.Faithful dest c settings (root.rename first) second)
include h'

/-- A copy of a copied table has the images of the entries of the original. -/
theorem Faithful.tables_comp {table : Table}
    (hvalue : source.Travels root (.table handle))
    (htable : source.heap.get? handle = some (.table table)) :
    ∃ copied, c.heap.get? (second (first handle)) = some (.table copied) ∧
      ∀ key value, (key, value) ∈ copied.entries ↔
        ∃ key' value', (key', value') ∈ table.entries ∧
          key.toValue = key'.toValue.rename (second ∘ first) ∧
            value = value'.rename (second ∘ first) := by
  obtain ⟨copied, hcopied, hentries⟩ := h.tables handle table hvalue htable
  obtain ⟨copied', hcopied', hentries'⟩ := h'.tables _ copied
    (h.travels_rename hsource hroot hmiddle hmiddle' hglobals hvalue) hcopied
  refine ⟨copied', hcopied', fun key value =>
    (hentries' key value).trans ⟨?_, ?_⟩⟩
  · rintro ⟨key₁, value₁, hentry, hkey, rfl⟩
    obtain ⟨key₂, value₂, hentry₂, hkey₂, rfl⟩ :=
      (hentries key₁ value₁).1 hentry
    refine ⟨key₂, value₂, hentry₂, ?_, value₂.rename_rename first second⟩
    rw [hkey, hkey₂, Value.rename_rename]
  · rintro ⟨key₂, value₂, hentry₂, hkey, rfl⟩
    refine ⟨key₂.rename first, value₂.rename first,
      (hentries _ _).2 ⟨key₂, value₂, hentry₂,
        key₂.toValue_rename first, rfl⟩, ?_,
      (value₂.rename_rename first second).symm⟩
    rw [hkey, Key.toValue_rename, Value.rename_rename]

/-- A copy of a copied function has the prototype of a copy, and holds the
globals where the original has its environment. -/
theorem Faithful.functions_comp {closure : Closure}
    (hvalue : source.Travels root (.function handle))
    (hclosure : source.heap.get? handle = some (.closure closure)) :
    ∃ copied, c.heap.get? (second (first handle)) = some (.closure copied) ∧
      copied.proto = (closure.proto.kept settings.stripDebug).attributedTo
        settings.chunkName ∧
      copied.cells.size = closure.cells.size ∧
      ∀ i name value, (source.upvalues (.function handle))[i]? =
        some (name, value) →
        ∃ cell, copied.cells[i]? = some cell ∧ ¬dest.Live cell ∧
          c.heap.get? cell = some (.cell
            (if i = 0 ∧ source.bindsGlobals name value = true then
              dest.globalsValue else value.rename (second ∘ first))) := by
  obtain ⟨copied, hcopied, hproto, hsize, -⟩ :=
    h.functions handle closure hvalue hclosure
  obtain ⟨copied', hcopied', hproto', hsize', hcells'⟩ := h'.functions _ copied
    (h.travels_rename hsource hroot hmiddle hmiddle' hglobals hvalue) hcopied
  refine ⟨copied', hcopied', ?_, hsize'.trans hsize,
    fun i name value hupvalue => ?_⟩
  · rw [hproto', hproto, Prototype.kept_attributedTo]
  · obtain ⟨cell, hcell, hfresh, hheld⟩ :=
      hcells' i _ _ (h.upvalues_rename hsource hroot hmiddle' hvalue hupvalue)
    refine ⟨cell, hcell, hfresh, hheld.trans ?_⟩
    by_cases hi : i = 0
    · subst hi
      have hfound := h.bindsGlobals_rename hmiddle hglobals hvalue hupvalue
      simp only [true_and, hfound]
      split
      · rfl
      · rw [Value.rename_rename]
    · rw [if_neg fun hplace => hi hplace.1, if_neg fun hplace => hi hplace.1,
        if_neg fun hplace => hi hplace.1, Value.rename_rename]

/-- A copy of a copy is a copy of the original. -/
theorem Faithful.comp :
    source.Faithful dest c settings root (second ∘ first) := by
  have htravels : ∀ {value : Value}, source.Travels root value →
      middle'.Travels (root.rename first) (value.rename first) := fun hvalue =>
    h.travels_rename hsource hroot hmiddle hmiddle' hglobals hvalue
  refine ⟨?_, h'.kept, h.portable, ?_, ?_, ?_, ?_, ?_⟩
  · rw [h'.pushed, Value.rename_rename]
  · intro value other handle handle' hvalue hother hhandle hhandle' heq
    refine h.injective value other handle handle' hvalue hother
      hhandle hhandle' ?_
    exact h'.injective _ _ _ _ (htravels hvalue) (htravels hother)
      (h.handle?_rename hvalue hhandle) (h.handle?_rename hother hhandle') heq
  · intro value handle hvalue hhandle
    exact h'.fresh _ _ (htravels hvalue) (h.handle?_rename hvalue hhandle)
  · exact fun _ _ => h.tables_comp hsource hroot hmiddle hmiddle' hglobals h'
  · exact fun _ _ => h.functions_comp hsource hroot hmiddle hmiddle' hglobals h'
  · intro handle handle' copied copied' i j cell hfunction hfunction' hcopied
      hcopied' hi hj
    obtain ⟨hsame, hplace⟩ := h'.cells _ _ copied copied' i j cell
      (htravels hfunction) (htravels hfunction') hcopied hcopied' hi hj
    exact ⟨h.injective _ _ _ _ hfunction hfunction' rfl rfl hsame, hplace⟩

end Copied

/-! ## Whole transfers -/

/-- A transfer that succeeds leaves a copy in a destination that
kept what it had. -/
theorem ends_receive_received {chunks : List UInt8 → String → Prop}
    (hsource : source.Intact) (hdest : dest.Intact)
    (hchunks : Chunk.Cache.Distinguished chunks)
    (hcache : dest.cache.Genuine chunks)
    (htravelling : ∀ bytes name, source.Travelling settings bytes name →
      chunks bytes name) (index : Int) :
    Ends (source.receive index settings dest)
      (fun _ c => c.Intact ∧ ∃ root rename, source.valueAt index = .ok root ∧
        Received source dest dest c settings root rename)
      fun _ _ => True := by
  have hreceive := (hsource.ends_receive hdest index settings).and
    (ends_receive_faithful hsource.toWellFormed hdest.toWellFormed hchunks
      hcache htravelling index)
  refine hreceive.mono (fun _ c hc => ?_) fun _ _ _ => trivial
  obtain ⟨⟨hintact, hpins⟩, root, rename, hroot, hfaithful⟩ := hc
  have hkeeps : dest.Keeps c :=
    ⟨hpins.globals, hpins.frames, hfaithful.pushed ▸ toList_prefix_push _ _,
      fun pin _ hvalue => (hpins.pinned pin).trans hvalue, hfaithful.kept⟩
  exact ⟨hintact, root, rename, hroot, hfaithful, .refl dest, hkeeps,
    hintact.toWellFormed⟩

/-- A value has come to a destination directly, and to one in the same state by
way of another context. -/
structure Relayed (source middle middle' dest relayed direct : Context)
    (settings : TransferSettings) (root : Value)
    (first second third : Handle → Handle) : Prop where
  hop : source.Faithful middle middle' settings root first
  onward : middle'.Faithful dest relayed settings (root.rename first) second
  straight : source.Faithful dest direct settings root third
  /-- What came in two hops is what came in one. -/
  isomorphic : relayed.Isomorphic direct ((root.rename first).rename second)
    (root.rename third)
  /-- On the second hop a function is found to have an environment if and only
  if it had one on the first. -/
  environment : ∀ handle, source.Travels root (.function handle) →
    (source.HasEnvironment (.function handle) ↔
      middle'.HasEnvironment (.function (first handle)))
  /-- In the end it reaches the globals, on both ways, if and only if it had
  one. -/
  rebound : ∀ handle, source.Travels root (.function handle) →
    (source.HasEnvironment (.function handle) ↔
      relayed.ReachesGlobals (.function (second (first handle)))) ∧
    (source.HasEnvironment (.function handle) ↔
      direct.ReachesGlobals (.function (third handle)))

/-- Transfers compose: what can travel in two hops can travel in one, and the
graphs that arrive are isomorphic, as long as no two of the chunks that travel
or that the caches were filled from share a key.  The copy goes on from wherever
the stack of the middle holds it. -/
theorem receive_composes {chunks : List UInt8 → String → Prop}
    {index there : Int} (hsource : source.Intact) (hmiddle : middle.Intact)
    (hdest : dest.Intact) (hchunks : Chunk.Cache.Distinguished chunks)
    (hcache : middle.cache.Genuine chunks) (hcache' : dest.cache.Genuine chunks)
    (htravelling : ∀ bytes name, source.Travelling settings bytes name →
      chunks bytes name)
    (htravelling' : ∀ bytes name, middle'.Travelling settings bytes name →
      chunks bytes name)
    (hfirst : source.receive index settings middle = .ok () middle')
    (hthere : middle'.valueAt there = middle'.valueAt (-1))
    (hsecond : middle'.receive there settings dest = .ok () c) :
    ∃ direct root first second third, source.valueAt index = .ok root ∧
      source.receive index settings dest = .ok () direct ∧
      Relayed source middle middle' dest c direct settings root
        first second third := by
  obtain ⟨hmiddle', root, first, hroot, hhop⟩ :=
    (ends_receive_received hsource hmiddle hchunks hcache htravelling
      index).ok hfirst
  obtain ⟨-, copy, second, hcopy, honward⟩ :=
    (ends_receive_received hmiddle' hdest hchunks hcache' htravelling'
      there).ok hsecond
  obtain rfl : copy = root.rename first :=
    Except.ok.inj (hcopy.symm.trans (hthere.trans (valueAt_top hhop.pushed)))
  have hsame := failureOf_receive_eq settings index hsource hmiddle hdest
  rw [hfirst] at hsame
  cases hresult : source.receive index settings dest with
  | error error d =>
    rw [hresult] at hsame
    cases hsame
  | ok _ direct =>
    obtain ⟨-, root', third, hroot', hstraight⟩ :=
      (ends_receive_received hsource hdest hchunks hcache' htravelling
        index).ok hresult
    cases hroot.symm.trans hroot'
    have hwell := hsource.toWellFormed
    have hnames := hsource.names_of_valueAt hroot
    have hcomp : source.Faithful dest c settings root (second ∘ first) :=
      hhop.comp hwell hnames hmiddle.toWellFormed hhop.wellFormed
        hhop.keeps.globals honward.toFaithful
    refine ⟨direct, root, first, second, third, hroot, rfl, hhop.toFaithful,
      honward.toFaithful, hstraight.toFaithful, ?_, fun handle hfunction => ?_,
      fun handle hfunction => ⟨?_, ?_⟩⟩
    · rw [Value.rename_rename]
      exact Received.isomorphic hwell hnames
        ⟨hcomp, .refl dest, honward.keeps, honward.wellFormed⟩ hstraight
        hdest.toWellFormed
    · exact hhop.hasEnvironment_iff hwell hnames hmiddle.toWellFormed
        hhop.wellFormed hhop.keeps.globals hfunction
    · exact hcomp.reachesGlobals_iff hwell hnames hdest.toWellFormed
        honward.wellFormed honward.keeps.globals hfunction
    · exact hstraight.reachesGlobals_iff hwell hnames hdest.toWellFormed
        hstraight.wellFormed hstraight.keeps.globals hfunction

/-- A function with an environment, which it knows by name, and a captured
number. -/
def furnished : Context :=
  holding [.table .empty,
    .closure ⟨{
      code := #[27]
      upvalues := #[{ name := some environmentName, capture := .ofLocal 0 },
        { name := some "count", capture := .ofLocal 1 }] }, #[⟨2⟩, ⟨3⟩]⟩,
    .cell (.table ⟨0⟩), .cell (.integer 7)] #[.function ⟨1⟩]

theorem intact_furnished : furnished.Intact := by
  refine intact_holding (wellFormed_holding (fun object hobject => ?_)
    (fun value hvalue => ?_) ⟨_, rfl⟩) fun closure hclosure => ?_
  · simp only [List.mem_cons, List.not_mem_nil, or_false] at hobject
    rcases hobject with rfl | rfl | rfl | rfl
    · exact holds_empty
    · refine ⟨rfl, fun cell hcell => ?_⟩
      rcases List.mem_cons.1 hcell with rfl | hcell
      · exact ⟨_, rfl⟩
      · cases List.mem_singleton.1 hcell
        exact ⟨_, rfl⟩
    · exact ⟨_, rfl⟩
    · trivial
  · cases List.mem_singleton.1 hvalue
    exact ⟨_, rfl⟩
  · simp only [List.mem_cons, List.not_mem_nil, or_false,
      reduceCtorEq, false_or, Object.closure.injEq] at hclosure
    subst hclosure
    exact Prototype.accepted_of_isOk (by decide +kernel)

/-- What the function travels as, on the first hop and on the second. -/
def furnishedChunk : List UInt8 :=
  ((furnished.chunkOf (.function ⟨1⟩) true).toOption).getD []

/-- The context that the function comes to first. -/
def halfway : Context := stateOf (furnished.receive 1 {} bare)

theorem stack_halfway : halfway.stack = #[].push (.function ⟨3⟩) := by
  decide +kernel

/-- The function has lost the names when it goes on, and still finds its
environment. -/
theorem receive_composes_furnished :
    ∃ relayed direct root first second third,
      furnished.receive 1 {} bare = .ok () halfway ∧
      halfway.upvalues (.function ⟨3⟩) =
        [("", halfway.globalsValue), ("", .integer 7)] ∧
      halfway.valueAt 1 = halfway.valueAt (-1) ∧
      halfway.receive 1 {} bare = .ok () relayed ∧
      furnished.receive 1 {} bare = .ok () direct ∧
      Relayed furnished bare halfway bare relayed direct {} root
        first second third := by
  have htop : halfway.stack[0]? = some (.function ⟨3⟩) := by
    rw [stack_halfway]
    rfl
  have hthere : halfway.valueAt 1 = halfway.valueAt (-1) :=
    (valueAt_of_getElem? htop).trans (valueAt_top stack_halfway).symm
  have hupvalues : halfway.upvalues (.function ⟨3⟩) =
      [("", halfway.globalsValue), ("", .integer 7)] := by
    decide +kernel
  have hwrites : Session.writesOnly furnished {} furnishedChunk = true := by
    decide +kernel
  have hwrites' : Session.writesOnly halfway {} furnishedChunk = true := by
    decide +kernel
  have hok : (failureOf (furnished.receive 1 {} bare)).isNone = true := by
    decide +kernel
  have hok' : (failureOf (halfway.receive 1 {} bare)).isNone = true := by
    decide +kernel
  have hfirst : furnished.receive 1 {} bare = .ok () halfway := by
    rw [halfway]
    cases hresult : furnished.receive 1 {} bare with
    | ok _ c => rfl
    | error error c =>
      rw [hresult] at hok
      cases hok
  cases hsecond : halfway.receive 1 {} bare with
  | error error c =>
    rw [hsecond] at hok'
    cases hok'
  | ok _ relayed =>
    obtain ⟨direct, root, first, second, third, -, hdirect, hrelayed⟩ :=
      receive_composes intact_furnished intact_bare intact_bare
        (Session.distinguished_of_eq furnishedChunk
          ({} : TransferSettings).chunkName) nofun nofun
        (fun _ _ htravels => Session.eq_of_writesOnly hwrites htravels)
        (fun _ _ htravels => Session.eq_of_writesOnly hwrites' htravels) hfirst
        hthere hsecond
    exact ⟨relayed, direct, root, first, second, third, hfirst, hupvalues,
      hthere, rfl, hdirect, hrelayed⟩

end Context

end Isolate
