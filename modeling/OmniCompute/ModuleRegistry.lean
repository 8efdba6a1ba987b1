import OmniCompute.CudaShim
import OmniCompute.EventRuns
import OmniCompute.KeyedTotals

/-! The Driver API's registry of loaded modules and the function handles it gives out.
A C string is its bytes, null is `none`, and what reading a file answers is an input. Every
answered lookup takes a new number; whether it is recorded depends on the module. -/
namespace ModuleRegistry

open RustValues EventRuns KeyedTotals CudaShim

inductive ModuleSource where
  | file (path : List UInt8)
  | data (ptxLen : ℕ)
  | fatbin
  deriving DecidableEq

structure ModuleEntry where
  id : UInt64
  source : ModuleSource
  functions : HashMap (List UInt8) UInt64
  rawBytes : List UInt8

structure RegistryState where
  registry : HashMap UInt64 ModuleEntry
  moduleCounter : UInt64
  functionCounter : UInt64

def RegistryState.new : RegistryState := ⟨∅, 1000, 2000⟩

inductive Reply where
  | code (code : CuResult)
  | loaded (hmod : UInt64)
  | function (hfunc : UInt64)
  deriving DecidableEq

/-- The end that both ways of loading share. -/
def insertModule (s : RegistryState) (source : ModuleSource) (rawBytes : List UInt8) :
    Reply × RegistryState :=
  let id := s.moduleCounter
  (.loaded id,
    { s with
      registry := s.registry.insert id ⟨id, source, ∅, rawBytes⟩
      moduleCounter := s.moduleCounter + 1 })

def cuModuleLoad (s : RegistryState) (moduleNull : Bool) (fname file : Option (List UInt8)) :
    Reply × RegistryState :=
  match moduleNull, fname with
  | false, some bytes =>
    match fromUtf8 bytes with
    | none => (.code .cudaErrorInvalidValue, s)
    | some path =>
      match file with
      | none => (.code .cudaErrorInvalidImage, s)
      | some rawBytes => insertModule s (.file path) rawBytes
  | _, _ => (.code .cudaErrorInvalidValue, s)

/-- `image` is read up to its terminator. -/
def cuModuleLoadData (s : RegistryState) (moduleNull : Bool) (image : Option (List UInt8)) :
    Reply × RegistryState :=
  match moduleNull, image with
  | false, some rawBytes => insertModule s (.data rawBytes.length) rawBytes
  | _, _ => (.code .cudaErrorInvalidValue, s)

/-- A number is taken and returned whether or not the module is known. -/
def answerFunction (s : RegistryState) (modId : UInt64) (funcName : List UInt8) :
    Reply × RegistryState :=
  let funcId := s.functionCounter
  (.function funcId,
    { s with
      registry :=
        match s.registry.lookup modId with
        | some entry =>
          s.registry.insert modId { entry with functions := entry.functions.insert funcName funcId }
        | none => s.registry
      functionCounter := s.functionCounter + 1 })

def asked (hfuncNull : Bool) (hmod : UInt64) (name : Option (List UInt8)) :
    Option (UInt64 × List UInt8) :=
  match hfuncNull, name with
  | false, some bytes => (fromUtf8 bytes).map fun funcName => (hmod, funcName)
  | _, _ => none

def cuModuleGetFunction (s : RegistryState) (hfuncNull : Bool) (hmod : UInt64)
    (name : Option (List UInt8)) : Reply × RegistryState :=
  match asked hfuncNull hmod name with
  | some (modId, funcName) => answerFunction s modId funcName
  | none => (.code .cudaErrorInvalidValue, s)

def cuModuleUnload (s : RegistryState) (hmod : UInt64) : Reply × RegistryState :=
  (.code .cudaSuccess, { s with registry := s.registry.erase hmod })

inductive Event where
  | load (moduleNull : Bool) (fname file : Option (List UInt8))
  | loadData (moduleNull : Bool) (image : Option (List UInt8))
  | getFunction (hfuncNull : Bool) (hmod : UInt64) (name : Option (List UInt8))
  | unload (hmod : UInt64)
  deriving DecidableEq

def registryStep (s : RegistryState) : Event → Reply × RegistryState
  | .load null fname file => cuModuleLoad s null fname file
  | .loadData null image => cuModuleLoadData s null image
  | .getFunction null hmod name => cuModuleGetFunction s null hmod name
  | .unload hmod => cuModuleUnload s hmod

def modules : Machine RegistryState Event Reply := ⟨.new, registryStep⟩

def AsksFor (e : Event) (m : UInt64) (name : List UInt8) : Prop :=
  ∃ null hmod bytes, e = .getFunction null hmod bytes ∧ asked null hmod bytes = some (m, name)

/-- A load has returned `m`, and the module was not unloaded since. -/
def Loaded (events : List Event) (i : ℕ) (m : UInt64) : Prop :=
  ∃ k, k < i ∧ modules.outputAt events k = some (.loaded m) ∧
    ∀ l, k < l → l < i → events[l]? ≠ some (.unload m)

def Recorded (s : RegistryState) (m : UInt64) (name : List UInt8) (f : UInt64) : Prop :=
  ∃ entry, s.registry.lookup m = some entry ∧ entry.functions.lookup name = some f

def StaysLoaded (events : List Event) (i j : ℕ) (m : UInt64) : Prop :=
  ∀ k, i < k → k < j → events[k]? ≠ some (.unload m)

/-- Lookups succeed on loaded modules only, and their answers stay recorded. -/
structure HandlesResolvable (events : List Event) : Prop where
  loaded : ∀ i e m name f, events[i]? = some e → AsksFor e m name →
    modules.outputAt events i = some (.function f) → Loaded events i m
  recorded : ∀ i j e m name f, events[i]? = some e → AsksFor e m name →
    modules.outputAt events i = some (.function f) → i < j → StaysLoaded events i j m →
      Recorded (modules.stateAt events j) m name f

/-- Only loaded modules are asked, and none of them is asked again for a name, unless the
counter has come round to the number given out before; nor is its id given out again. -/
structure AskedOnce (events : List Event) : Prop where
  loaded : ∀ i e m name, events[i]? = some e → AsksFor e m name → Loaded events i m
  once : ∀ i j e d m name, i < j → events[i]? = some e → AsksFor e m name →
    StaysLoaded events i j m → events[j]? = some d → AsksFor d m name →
      (modules.stateAt events j).functionCounter = (modules.stateAt events i).functionCounter
  fresh : ∀ i j e m name, i < j → events[i]? = some e → AsksFor e m name →
    StaysLoaded events i j m → modules.outputAt events j ≠ some (.loaded m)

section Steps

variable {s : RegistryState} {e : Event} {m : UInt64} {name : List UInt8} {f : UInt64}

theorem asks_step (h : AsksFor e m name) : registryStep s e = answerFunction s m name := by
  obtain ⟨null, hmod, bytes, rfl, hasked⟩ := h
  simp only [registryStep, cuModuleGetFunction, hasked]

theorem load_cases (null : Bool) (fname file : Option (List UInt8)) :
    (∃ code, cuModuleLoad s null fname file = (.code code, s)) ∨
    ∃ source rawBytes, cuModuleLoad s null fname file = insertModule s source rawBytes := by
  unfold cuModuleLoad
  split
  · split
    · exact Or.inl ⟨_, rfl⟩
    · split
      · exact Or.inl ⟨_, rfl⟩
      · exact Or.inr ⟨_, _, rfl⟩
  · exact Or.inl ⟨_, rfl⟩

theorem loadData_cases (null : Bool) (image : Option (List UInt8)) :
    (∃ code, cuModuleLoadData s null image = (.code code, s)) ∨
    ∃ source rawBytes, cuModuleLoadData s null image = insertModule s source rawBytes := by
  unfold cuModuleLoadData
  split
  · exact Or.inr ⟨_, _, rfl⟩
  · exact Or.inl ⟨_, rfl⟩

theorem step_cases (s : RegistryState) (e : Event) :
    ((∃ code, registryStep s e = (.code code, s)) ∧ ∀ m, e ≠ .unload m) ∨
    (∃ source rawBytes, registryStep s e = insertModule s source rawBytes) ∨
    (∃ m name, AsksFor e m name) ∨ ∃ m, e = .unload m := by
  cases e with
  | load null fname file =>
    rcases load_cases (s := s) null fname file with ⟨code, h⟩ | h
    · exact Or.inl ⟨⟨code, h⟩, fun m => by simp⟩
    · exact Or.inr (Or.inl h)
  | loadData null image =>
    rcases loadData_cases (s := s) null image with ⟨code, h⟩ | h
    · exact Or.inl ⟨⟨code, h⟩, fun m => by simp⟩
    · exact Or.inr (Or.inl h)
  | getFunction null hmod bytes =>
    cases h : asked null hmod bytes with
    | none =>
      refine Or.inl ⟨⟨.cudaErrorInvalidValue, ?_⟩, fun m => by simp⟩
      simp only [registryStep, cuModuleGetFunction, h]
    | some ask => exact Or.inr (Or.inr (Or.inl ⟨ask.1, ask.2, null, hmod, bytes, rfl, h⟩))
  | unload hmod => exact Or.inr (Or.inr (Or.inr ⟨hmod, rfl⟩))

theorem answer_lookup (k : UInt64) : (answerFunction s m name).2.registry.lookup k =
    if k = m then (s.registry.lookup m).map fun entry =>
      { entry with functions := entry.functions.insert name s.functionCounter }
    else s.registry.lookup k := by
  cases hm : s.registry.lookup m with
  | none =>
    by_cases hk : k = m
    · subst hk
      simp [answerFunction, hm]
    · simp [answerFunction, hm, hk]
  | some entry =>
    by_cases hk : k = m
    · subst hk
      simp [answerFunction, hm]
    · simp [answerFunction, hm, hk, AList.lookup_insert_ne hk]

theorem insert_lookup {source : ModuleSource} {rawBytes : List UInt8} (k : UInt64) :
    (insertModule s source rawBytes).2.registry.lookup k =
      if k = s.moduleCounter then some ⟨s.moduleCounter, source, ∅, rawBytes⟩
      else s.registry.lookup k := by
  by_cases hk : k = s.moduleCounter
  · subst hk
    simp [insertModule]
  · simp [insertModule, hk, AList.lookup_insert_ne hk]

theorem present_step (s : RegistryState) (e : Event) (m : UInt64) :
    ((registryStep s e).2.registry.lookup m).isSome ↔ (registryStep s e).1 = .loaded m ∨
      ((s.registry.lookup m).isSome ∧ e ≠ .unload m) := by
  rcases step_cases s e with ⟨⟨code, h⟩, hne⟩ | ⟨source, rawBytes, h⟩ | ⟨k, name, h⟩ | ⟨k, rfl⟩
  · simp [h, hne m]
  · have hne : e ≠ .unload m := by
      rintro rfl
      have hreply := congrArg Prod.fst h
      cases hreply
    rw [h, insert_lookup]
    by_cases hk : m = s.moduleCounter
    · simp [hk, insertModule]
    · simp [hk, insertModule, Ne.symm hk, hne]
  · have hne : e ≠ .unload m := by
      rintro rfl
      obtain ⟨_, _, _, heq, _⟩ := h
      cases heq
    rw [asks_step h, answer_lookup]
    by_cases hk : m = k
    · subst hk
      simp [answerFunction, hne]
    · simp [hk, answerFunction, hne]
  · by_cases hk : m = k
    · subst hk
      simp [registryStep, cuModuleUnload]
    · simp [Ne.symm hk, registryStep, cuModuleUnload, AList.lookup_erase_ne hk]

theorem recorded_ask (h : AsksFor e m name) (hm : (s.registry.lookup m).isSome) :
    Recorded (registryStep s e).2 m name s.functionCounter := by
  obtain ⟨entry, hentry⟩ := Option.isSome_iff_exists.mp hm
  refine ⟨{ entry with functions := entry.functions.insert name s.functionCounter }, ?_, ?_⟩
  · rw [asks_step h, answer_lookup, if_pos rfl, hentry]
    rfl
  · exact AList.lookup_insert _

theorem recorded_load (h : (registryStep s e).1 = .loaded m) :
    ¬ Recorded (registryStep s e).2 m name f := by
  rcases step_cases s e with ⟨⟨code, hs⟩, _⟩ | ⟨source, rawBytes, hs⟩ | ⟨k, n, hs⟩ | ⟨k, rfl⟩
  · rw [hs] at h
    cases h
  · rw [hs] at h ⊢
    cases h
    rintro ⟨entry, hentry, hf⟩
    rw [insert_lookup, if_pos rfl] at hentry
    cases hentry
    cases hf
  · rw [asks_step hs] at h
    cases h
  · cases h

/-- What is recorded stays so while its module is neither unloaded, entered anew, nor asked
again for the same name under another number. -/
theorem recorded_step (h : Recorded s m name f) (hunload : e ≠ .unload m)
    (hload : (registryStep s e).1 ≠ .loaded m)
    (hask : AsksFor e m name → s.functionCounter = f) : Recorded (registryStep s e).2 m name f := by
  obtain ⟨entry, hentry, hf⟩ := h
  rcases step_cases s e with ⟨⟨code, hs⟩, _⟩ | ⟨source, rawBytes, hs⟩ | ⟨k, n, hs⟩ | ⟨k, rfl⟩
  · rw [hs]
    exact ⟨entry, hentry, hf⟩
  · have hk : m ≠ s.moduleCounter := by
      rintro rfl
      exact hload (by rw [hs]; rfl)
    rw [hs]
    exact ⟨entry, by rw [insert_lookup, if_neg hk, hentry], hf⟩
  · rw [asks_step hs]
    by_cases hk : m = k
    · subst hk
      refine ⟨{ entry with functions := entry.functions.insert n s.functionCounter }, ?_, ?_⟩
      · rw [answer_lookup, if_pos rfl, hentry]
        rfl
      · by_cases hn : name = n
        · subst hn
          rw [← hask hs]
          exact AList.lookup_insert _
        · rw [← hf]
          exact AList.lookup_insert_ne hn
    · exact ⟨entry, by rw [answer_lookup, if_neg hk, hentry], hf⟩
  · have hk : m ≠ k := by
      rintro rfl
      exact hunload rfl
    exact ⟨entry, by rw [← hentry]; exact AList.lookup_erase_ne hk, hf⟩

end Steps

section Runs

variable {events : List Event} {i j : ℕ} {e : Event} {m : UInt64} {name : List UInt8}

theorem loaded_iff (events : List Event) (i : ℕ) (m : UInt64) :
    ((modules.stateAt events i).registry.lookup m).isSome ↔ Loaded events i m := by
  refine announced_since_iff modules events
    (P := fun s => ((s.registry.lookup m).isSome : Prop)) ?_ (fun s e => present_step s e m) i
  intro hsome
  cases hsome

theorem answered (he : events[i]? = some e) (h : AsksFor e m name) :
    modules.outputAt events i = some (.function (modules.stateAt events i).functionCounter) := by
  rw [outputAt_eq modules he]
  change some (registryStep _ e).1 = _
  rw [asks_step h]
  rfl

theorem recorded_after (he : events[i]? = some e) (h : AsksFor e m name)
    (hloaded : Loaded events i m) : Recorded (modules.stateAt events (i + 1)) m name
      (modules.stateAt events i).functionCounter := by
  rw [stateAt_succ _ he]
  exact recorded_ask h ((loaded_iff events i m).mpr hloaded)

theorem staysLoaded_succ (h : StaysLoaded events i j m) (hj : events[j]? ≠ some (.unload m)) :
    StaysLoaded events i (j + 1) m := by
  intro k hik hk
  rcases Nat.lt_succ_iff_lt_or_eq.mp hk with hlt | rfl
  · exact h k hik hlt
  · exact hj

end Runs

/-- Handles stay resolvable exactly when loaded modules are asked once for each name. -/
theorem handles_resolvable_iff (events : List Event) :
    HandlesResolvable events ↔ AskedOnce events := by
  constructor
  · intro hall
    constructor
    · intro i e m name he h
      exact hall.loaded i e m name _ he h (answered he h)
    · intro i j e d m name hij he h hstay hd hagain
      have hunload : events[j]? ≠ some (.unload m) := by
        rw [hd]
        rintro heq
        cases heq
        obtain ⟨_, _, _, heq, _⟩ := hagain
        cases heq
      have hloaded := hall.loaded j d m name _ hd hagain (answered hd hagain)
      obtain ⟨entry, hentry, hfirst⟩ := hall.recorded i (j + 1) e m name _ he h (answered he h)
        (Nat.lt_succ_of_lt hij) (staysLoaded_succ hstay hunload)
      obtain ⟨entry', hentry', hsecond⟩ := recorded_after hd hagain hloaded
      cases hentry.symm.trans hentry'
      exact Option.some.inj (hsecond.symm.trans hfirst)
    · intro i j e m name hij he h hstay hout
      obtain ⟨d, hd, hload⟩ := Option.map_eq_some_iff.mp hout
      have hunload : events[j]? ≠ some (.unload m) := by
        rw [hd]
        rintro heq
        cases heq
        cases hload
      have hrec := hall.recorded i (j + 1) e m name _ he h (answered he h)
        (Nat.lt_succ_of_lt hij) (staysLoaded_succ hstay hunload)
      rw [stateAt_succ _ hd] at hrec
      exact recorded_load hload hrec
  · intro honce
    constructor
    · intro i e m name f he h _
      exact honce.loaded i e m name he h
    · intro i j e m name f he h hf hij hstay
      cases (answered he h).symm.trans hf
      have hbase := recorded_after he h (honce.loaded i e m name he h)
      refine stable_between modules events
        (fun s => Recorded s m name (modules.stateAt events i).functionCounter)
        (show i + 1 ≤ j from hij) hbase ?_
      intro k d hik hkj hd hrec
      have hbefore : StaysLoaded events i k m := fun l hil hl => hstay l hil (hl.trans hkj)
      refine recorded_step hrec ?_ ?_ ?_
      · rintro rfl
        exact hstay k hik hkj hd
      · intro hload
        have hout := (outputAt_eq modules hd).trans (congrArg some hload)
        exact honce.fresh i k e m name hik he h hbefore hout
      · intro hagain
        exact honce.once i k e d m name hik he h hbefore hd hagain

theorem unresolvable_handles :
    ¬ HandlesResolvable [.getFunction false 1000 (some [107])] ∧
    ¬ HandlesResolvable [.loadData false (some []), .getFunction false 1000 (some [107]),
      .getFunction false 1000 (some [107])] := by
  constructor
  · intro hall
    obtain ⟨k, hk, _⟩ := hall.loaded 0 _ 1000 [107] 2000 rfl
      ⟨false, 1000, some [107], rfl, by decide +kernel⟩ (by decide +kernel)
    exact absurd hk (Nat.not_lt_zero k)
  · intro hall
    obtain ⟨entry, hentry, hf⟩ := hall.recorded 1 3 _ 1000 [107] 2000 rfl
      ⟨false, 1000, some [107], rfl, by decide +kernel⟩ (by decide +kernel) (by decide)
      (by
        intro k h1 h3
        have hk : k = 2 := by omega
        subst hk
        decide)
    have hlast : ((modules.stateAt [.loadData false (some []),
        .getFunction false 1000 (some [107]), .getFunction false 1000 (some [107])]
          3).registry.lookup 1000).bind (fun entry => entry.functions.lookup [107]) =
        some 2001 := by decide +kernel
    rw [hentry] at hlast
    cases hf.symm.trans hlast

end ModuleRegistry
