import CodeClones.Proofs.Script.Handles

/-!
# Proofs/Script/Batch — what the answers of additions stand for

A batch is added value by value.  If all values are signatures the answer is their numbers; at the
first that is none the call fails, and what came before it stays added (`addBatch_keeps_prefix`).  A
signature that is too short for the index takes a number and is not stored, so the number that an
addition answers leads back to its signature exactly if that is long enough (`add_found_of_long`).
-/

namespace CodeClones.Script

open Log

variable {session : Session} {handle : Handle} {index : Index} {next : DocumentId}

/-! ## The calls that are asked afterwards -/

/-- The number of signatures that a script is told of. -/
def Session.signatureCount (session : Session) (handle : Value) : Except CallError Value :=
  (session.call .statistics ⟨[handle]⟩).value.answer.map fun figures =>
    figures.property "numSignatures"

/-- The candidates that a script is told of. -/
def Session.candidatesOf (session : Session) (handle value : Value) : Except CallError Value :=
  (session.call .candidates ⟨[handle, value]⟩).value.answer

theorem signatureCount_eq {name : Value} (hname : name.handle? = some handle)
    (hindex : session.indexes[handle]? = some index) :
    session.signatureCount name = .ok (.ofNat index.size) := by
  change (session.statistics ⟨[name]⟩).map _ = _
  have hfind : session.find (Arguments.get ⟨[name]⟩ 0) = .ok (handle, index) :=
    find_eq_ok_iff.mpr ⟨hname, hindex⟩
  rw [Session.statistics, if_neg (by exact Nat.lt_irrefl 1), hfind]
  rfl

/-- **A lookup asks for the slots of a signature.** -/
theorem candidates_of_slots? {arguments : Arguments} {value : Value} {slots : Array UInt64}
    {probes : Nat} (hindex : session.indexes[handle]? = some index)
    (hslots : value.slots? = some slots) (hhandle : (arguments.get 0).handle? = some handle)
    (hvalue : arguments.get 1 = value)
    (hprobes : Session.readProbes (arguments.get 2) = .ok probes) :
    (session.call .candidates arguments).value.answer
      = .ok (.list ((if 0 < probes then index.queryProbing ⟨Session.lookupId, slots⟩ probes
          else index.query ⟨Session.lookupId, slots⟩).map .ofWord)) := by
  obtain ⟨bytes, hbytes, hread⟩ := slots?_eq_some_iff.mp hslots
  change session.candidates arguments = _
  rw [Session.candidates, hvalue, hbytes, find_eq_ok_iff.mpr ⟨hhandle, hindex⟩]
  change (readSlots bytes >>= _) = _
  rw [hread]
  change (Session.readProbes (arguments.get 2) >>= _) = _
  rw [hprobes]
  rfl

theorem candidatesOf_eq {name value : Value} {slots : Array UInt64}
    (hname : name.handle? = some handle) (hindex : session.indexes[handle]? = some index)
    (hslots : value.slots? = some slots) :
    session.candidatesOf name value
      = .ok (.list ((index.query ⟨Session.lookupId, slots⟩).map .ofWord)) := by
  have hhandle : (Arguments.get ⟨[name, value]⟩ 0).handle? = some handle := hname
  exact candidates_of_slots? hindex hslots hhandle rfl rfl

/-! ## A batch -/

/-- A value that is no signature ends the leading ones. -/
theorem leadingSlots_of_refused {before : List Value} {value : Value} (rest : List Value)
    (hbefore : ∀ other ∈ before, other.IsSignature) (hvalue : ¬value.IsSignature) :
    (leadingSlots (before ++ value :: rest)).length = before.length
      ∧ firstRefused (before ++ value :: rest) = some value := by
  rw [Value.isSignature_iff, Option.not_isSome_iff_eq_none] at hvalue
  induction before with
  | nil =>
    rw [List.nil_append, leadingSlots_cons_of_none hvalue, firstRefused,
      List.find?_cons_of_pos (by rw [hvalue]; rfl)]
    exact ⟨rfl, rfl⟩
  | cons first before ih =>
    obtain ⟨hfirst, hothers⟩ := List.forall_mem_cons.mp hbefore
    obtain ⟨slots, hslots⟩ := Option.isSome_iff_exists.mp (Value.isSignature_iff.mp hfirst)
    obtain ⟨hlength, hrefused⟩ := ih hothers
    rw [List.cons_append, leadingSlots_cons_of_some hslots, List.length_cons, hlength, firstRefused,
      List.find?_cons_of_neg (by rw [hslots]; exact Bool.false_ne_true)]
    exact ⟨rfl, hrefused⟩

/-- **What a batch leads to** — the leading signatures are added, and the answer is the numbers of
all values or the reason why the first bad one is refused. -/
theorem addBatch_spec (h : session.Keeps handle index next) (arguments : Arguments)
    {values : List Value} (hhandle : (arguments.get 0).handle? = some handle)
    (hvalues : arguments.get 1 = .list values) :
    Adds handle (leadingSlots values) session (session.call .addBatch arguments).value.session
      ∧ (session.call .addBatch arguments).value.answer = match firstRefused values with
        | none => .ok (.list ((wordsFrom next values.length).map .ofWord))
        | some value => .error (value.refusal .signaturesNotBuffers) := by
  have hread : session.readAdditions arguments = .ok (handle, values) :=
    readAdditions_eq_ok_iff.mpr ⟨hvalues, index, find_eq_ok_iff.mpr ⟨hhandle, h.indexes⟩⟩
  have hcall : session.call .addBatch arguments = session.addEach handle [] values := by
    rw [Session.call, Session.addBatch, hread]
  rw [hcall]
  exact addEach_spec h [] values

/-- **A batch is added value by value** — after any calls, on a live handle, the signatures before
the first value that is none are inserted under consecutive numbers, and the counter of the handle
stands behind them.  If no value is refused the answer is their numbers; otherwise the call fails
with what came before still added.  Each added signature with a slot for every row of every band is
stored under its number; a shorter one only takes the number.  Nothing else changes. -/
theorem addBatch_keeps_prefix (ambient : Ambient) (history : List Call) (handle : Handle)
    (index : Index) (arguments : Arguments) (values : List Value)
    (hindex : ((Session.start ambient).after history).indexes[handle]? = some index)
    (hhandle : (arguments.get 0).handle? = some handle)
    (hvalues : arguments.get 1 = .list values) :
    let session := (Session.start ambient).after history
    let outcome := (session.call .addBatch arguments).value
    let signatures := leadingSlots values
    ∃ next, session.nextIds[handle]? = some next
      ∧ AgreeOff handle session outcome.session
      ∧ outcome.session.indexes[handle]? = some (index.insertFrom next signatures)
      ∧ outcome.session.nextIds[handle]? = some (next + .ofNat signatures.length)
      ∧ ((∀ value ∈ values, value.IsSignature) → signatures.length = values.length
        ∧ outcome.answer = .ok (.list ((wordsFrom next values.length).map .ofWord)))
      ∧ (∀ before value rest, values = before ++ value :: rest →
        (∀ other ∈ before, other.IsSignature) → ¬value.IsSignature →
          signatures.length = before.length
            ∧ outcome.answer = .error (value.refusal .signaturesNotBuffers))
      ∧ (values.length ≤ 2 ^ 32 → ∀ k slots, signatures[k]? = some slots →
        (index.insertFrom next signatures).signature? (next + .ofNat k)
          = if index.split.required ≤ slots.size then some ⟨next + .ofNat k, slots⟩
            else index.signature? (next + .ofNat k))
      ∧ ∀ id ∉ wordsFrom next signatures.length,
        (index.insertFrom next signatures).signature? id = index.signature? id := by
  intro session outcome signatures
  obtain ⟨_, next, hkeeps⟩ := (paired_after ambient history).exists_keeps
    (mem_table_iff.mpr ⟨index, hindex⟩)
  obtain rfl := Option.some.inj (hindex.symm.trans hkeeps.indexes)
  obtain ⟨hadds, hanswer⟩ := addBatch_spec hkeeps arguments hhandle hvalues
  obtain ⟨hindexes, hnextIds⟩ := hadds.keeps hkeeps
  refine ⟨next, hkeeps.nextIds, hadds.elsewhere, hindexes, hnextIds, fun hall => ?_, ?_,
    fun hlength k slots hk => ?_, fun id hid => Index.signature?_insertFrom_of_notMem hid⟩
  · refine ⟨length_leadingSlots hall, hanswer.trans ?_⟩
    rw [firstRefused_eq_none_iff.mpr hall]
  · rintro before value rest rfl hbefore hvalue
    obtain ⟨hlength, hrefused⟩ := leadingSlots_of_refused rest hbefore hvalue
    refine ⟨hlength, hanswer.trans ?_⟩
    rw [hrefused]
  · exact Index.signature?_insertFrom_at _ next ((length_leadingSlots_le values).trans hlength) hk

/-- An index that has just been made. -/
theorem keeps_createIndex {arguments : Arguments} {split : Split}
    (h : readSplit arguments = .ok split) (session : Session) :
    (session.after [⟨.createIndex, arguments⟩]).Keeps session.nextHandle (.empty split) 0 := by
  change Session.Keeps (session.createIndex arguments).session _ _ _
  rw [Session.createIndex, h]
  have hhold := Session.Keeps.hold session session.nextHandle (.empty split) 0
  exact ⟨hhold.indexes, hhold.nextIds⟩

section OneByOne

/-- One index of one band with one row. -/
def oneByOne : List Call :=
  [⟨.createIndex, ⟨[.ofNat 1, .ofNat 1]⟩⟩]

theorem keeps_oneByOne (ambient : Ambient) :
    ((Session.start ambient).after oneByOne).Keeps 1 (.empty (.ofCounts 1 1)) 0 :=
  keeps_createIndex rfl (.start ambient)

/-- A batch of a signature and a buffer of one byte. -/
theorem addBatch_keeps_first :
    let session := (Session.start ⟨1, .info⟩).after oneByOne
    let arguments : Arguments := ⟨[.ofWord 1, .list [.buffer (List.replicate 8 0), .buffer [7]]]⟩
    let outcome := (session.call .addBatch arguments).value
    session.indexes[(1 : Handle)]? = some (Index.empty (.ofCounts 1 1))
      ∧ (arguments.get 0).handle? = some 1
      ∧ outcome.answer = .error .signatureLength
      ∧ outcome.session.indexes[(1 : Handle)]?
        = some ((Index.empty (.ofCounts 1 1)).insertFrom 0 [#[0]]) := by
  intro session arguments outcome
  have hkeeps := keeps_oneByOne ⟨1, .info⟩
  obtain ⟨next, hnext, -, hindexes, -, -, hrefused, -⟩ := addBatch_keeps_prefix ⟨1, .info⟩ oneByOne
    1 _ arguments _ hkeeps.indexes (Value.handle?_ofWord 1) rfl
  obtain rfl := Option.some.inj (hkeeps.nextIds.symm.trans hnext)
  obtain ⟨-, hanswer⟩ := hrefused [.buffer (List.replicate 8 0)] (.buffer [7]) [] rfl
    (by simp [Value.IsSignature, Value.rawBytes?]) (by simp [Value.IsSignature, Value.rawBytes?])
  exact ⟨hkeeps.indexes, Value.handle?_ofWord 1, hanswer, hindexes⟩

/-- **A batch is not all or nothing** — a batch of a signature and a buffer of one byte fails, but
the signature is stored and the counter has moved; and a batch of an empty buffer answers a number
under which nothing is stored. -/
theorem addBatch_not_atomic :
    let session := (Session.start ⟨1, .info⟩).after oneByOne
    let mixed := (session.call .addBatch
      ⟨[.ofWord 1, .list [.buffer (List.replicate 8 0), .buffer [7]]]⟩).value
    let short := (session.call .addBatch ⟨[.ofWord 1, .list [.buffer []]]⟩).value
    (∃ index index', session.Keeps 1 index 0 ∧ index.signature? 0 = none
        ∧ mixed.answer = .error .signatureLength
        ∧ mixed.session.Keeps 1 index' 1 ∧ index'.signature? 0 = some ⟨0, #[0]⟩)
      ∧ ∃ index, short.answer = .ok (.list [.ofWord 0])
        ∧ short.session.Keeps 1 index 1 ∧ index.signature? 0 = none := by
  intro session mixed short
  have hkeeps := keeps_oneByOne ⟨1, .info⟩
  obtain ⟨hmixed, hmixed_answer⟩ := addBatch_spec hkeeps
    ⟨[.ofWord 1, .list [.buffer (List.replicate 8 0), .buffer [7]]]⟩ (Value.handle?_ofWord 1) rfl
  obtain ⟨hshort, hshort_answer⟩ := addBatch_spec hkeeps ⟨[.ofWord 1, .list [.buffer []]]⟩
    (Value.handle?_ofWord 1) rfl
  refine ⟨⟨_, _, hkeeps, Index.signature?_empty _ 0, hmixed_answer, hmixed.keeps hkeeps, ?_⟩,
    _, hshort_answer, hshort.keeps hkeeps, ?_⟩
  · have hone : leadingSlots [.buffer (List.replicate 8 0), .buffer [7]] = [#[0]] := rfl
    rw [hone]
    have hlength : [#[(0 : UInt64)]].length ≤ 2 ^ 32 := by decide
    exact Index.signature?_insertFrom_at _ 0 (k := 0) hlength rfl
  · have hnone : leadingSlots [.buffer []] = [#[]] := rfl
    rw [hnone]
    exact (Index.signature?_insertFrom_at _ 0 (k := 0) (by decide) rfl).trans
      ((if_neg (by decide)).trans (Index.signature?_empty _ _))

end OneByOne

/-! ## One signature -/

/-- An addition on a live handle gets as far as its signature. -/
theorem call_add_eq (h : session.Keeps handle index next) (arguments : Arguments)
    (hcount : 2 ≤ arguments.count) (hhandle : (arguments.get 0).handle? = some handle) :
    session.call .add arguments
      = session.addSignature handle (arguments.get 1) .signatureNotBuffer := by
  rw [Session.call, Session.add, if_neg (Nat.not_lt_of_le hcount),
    find_eq_ok_iff.mpr ⟨hhandle, h.indexes⟩]

/-- **What one addition leads to.** -/
theorem add_spec (h : session.Keeps handle index next) {name : Value} (value : Value)
    (hname : name.handle? = some handle) :
    Adds handle (leadingSlots [value]) session (session.call .add ⟨[name, value]⟩).value.session
      ∧ (session.call .add ⟨[name, value]⟩).value.answer
        = if value.slots?.isSome then .ok (.ofWord next)
          else .error (value.refusal .signatureNotBuffer) := by
  rw [call_add_eq h ⟨[name, value]⟩ (Nat.le_refl 2) hname]
  exact addSignature_spec h value .signatureNotBuffer

/-- **The answer of an addition leads back to the signature**, if that is long enough for the index.
After calls that do not bring the counters round, every signature that is added under a live handle
gets a number.  With a slot for every row of every band it is counted, and its number is among its
candidates; a shorter one is not stored: the index stays as it is, and the signature has no
candidates. -/
theorem add_found_of_long (ambient : Ambient) (history : List Call) (handle : Handle)
    (index : Index) (name value : Value) (hbounds : (Session.start ambient).InBounds history)
    (hindex : ((Session.start ambient).after history).indexes[handle]? = some index)
    (hname : name.handle? = some handle) (hvalue : value.IsSignature) :
    let session := (Session.start ambient).after history
    let outcome := (session.call .add ⟨[name, value]⟩).value
    ∃ id slots, value.slots? = some slots ∧ outcome.answer = .ok (.ofWord id)
      ∧ session.signatureCount name = .ok (.ofNat index.size)
      ∧ (index.split.required ≤ slots.size →
        outcome.session.signatureCount name = .ok (.ofNat (index.size + 1))
          ∧ ∃ found, outcome.session.candidatesOf name value = .ok (.list found)
            ∧ .ofWord id ∈ found)
      ∧ (slots.size < index.split.required →
        outcome.session.indexes[handle]? = some index
          ∧ outcome.session.signatureCount name = .ok (.ofNat index.size)
          ∧ outcome.session.candidatesOf name value = .ok (.list [])) := by
  intro session outcome
  obtain ⟨_, id, hkeeps⟩ := (paired_after ambient history).exists_keeps
    (mem_table_iff.mpr ⟨index, hindex⟩)
  obtain rfl := Option.some.inj (hindex.symm.trans hkeeps.indexes)
  obtain ⟨slots, hslots⟩ := Option.isSome_iff_exists.mp (Value.isSignature_iff.mp hvalue)
  obtain ⟨hadds, hanswer⟩ := add_spec hkeeps value hname
  rw [hslots, Option.isSome_some, if_pos rfl] at hanswer
  rw [leadingSlots_cons_of_some hslots] at hadds
  have hafter : outcome.session.indexes[handle]? = some (index.insert ⟨id, slots⟩) :=
    (hadds.keeps hkeeps).indexes
  have hroom := hbounds.handles
  have hadditions := hbounds.additions handle
  have htally := (tally_after ambient history (by omega)).1
  refine ⟨id, slots, hslots, hanswer, signatureCount_eq hname hindex, fun hlong => ?_,
    fun hshort => ?_⟩
  · have hnew : index.signature? id = none := by
      by_contra hsome
      obtain ⟨signature, hstored⟩ := Option.ne_none_iff_exists'.mp hsome
      obtain ⟨next, hnext, hlt⟩ := lt_nextId_of_stored hbounds hindex hstored
      obtain rfl := Option.some.inj (hkeeps.nextIds.symm.trans hnext)
      exact UInt32.lt_irrefl _ hlt
    have hid : id ≠ Session.lookupId := fun heq => by
      rw [htally.next hkeeps.nextIds] at heq
      have hword := congrArg UInt32.toNat heq
      rw [UInt32.toNat_ofNat_of_lt' (hadditions.trans (by decide))] at hword
      exact Nat.ne_of_lt hadditions hword
    rw [signatureCount_eq hname hafter, candidatesOf_eq hname hafter hslots,
      Index.size_insert_of_new ⟨id, slots⟩ hlong hnew]
    exact ⟨rfl, _, rfl, List.mem_map_of_mem
      (Index.mem_query_insert (htally.sound hindex) hlong hid)⟩
  · rw [Index.insert_of_short ⟨id, slots⟩ hshort] at hafter
    rw [signatureCount_eq hname hafter, candidatesOf_eq hname hafter hslots,
      Index.query_of_short ⟨Session.lookupId, slots⟩ hshort]
    exact ⟨hafter, rfl, rfl⟩

/-- A signature of one slot in an index of one band with one row. -/
theorem add_found_of_one_slot :
    let session := (Session.start ⟨1, .info⟩).after oneByOne
    let outcome := (session.call .add ⟨[.ofWord 1, .buffer (List.replicate 8 0)]⟩).value
    (Session.start ⟨1, .info⟩).InBounds oneByOne
      ∧ session.indexes[(1 : Handle)]? = some (Index.empty (.ofCounts 1 1))
      ∧ (Value.buffer (List.replicate 8 0)).IsSignature
      ∧ ∃ id found, outcome.answer = .ok (.ofWord id)
        ∧ outcome.session.signatureCount (.ofWord 1) = .ok (.ofNat 1)
        ∧ outcome.session.candidatesOf (.ofWord 1) (.buffer (List.replicate 8 0))
          = .ok (.list found) ∧ .ofWord id ∈ found := by
  intro session outcome
  have hbounds : (Session.start ⟨1, .info⟩).InBounds oneByOne := inBounds_of_sum_lt (by decide)
  have hindex := (keeps_oneByOne ⟨1, .info⟩).indexes
  have hvalue : (Value.buffer (List.replicate 8 0)).IsSignature :=
    ⟨_, rfl, by rw [List.length_replicate]⟩
  obtain ⟨id, slots, hslots, hanswer, -, hlong, -⟩ := add_found_of_long ⟨1, .info⟩ oneByOne 1 _
    (.ofWord 1) (.buffer (List.replicate 8 0)) hbounds hindex (Value.handle?_ofWord 1) hvalue
  obtain rfl : #[0] = slots := Option.some.inj hslots
  obtain ⟨hcount, found, hfound, hmem⟩ := hlong (by decide)
  exact ⟨hbounds, hindex, hvalue, id, found, hanswer, hcount, hfound, hmem⟩

/-- Adding an empty buffer, which has no slot. -/
def addEmpty : Call :=
  ⟨.add, ⟨[.ofWord 1, .buffer []]⟩⟩

/-- **Empty buffers take numbers** and leave the index empty. -/
theorem keeps_after_addEmpty (ambient : Ambient) (n : Nat) :
    ((Session.start ambient).after (oneByOne ++ List.replicate n addEmpty)).Keeps 1
      (.empty (.ofCounts 1 1)) (.ofNat n) := by
  induction n with
  | zero =>
    rw [List.replicate_zero, List.append_nil]
    exact keeps_oneByOne ambient
  | succ n ih =>
    rw [List.replicate_succ', ← List.append_assoc, Session.after_concat, UInt32.ofNat_add]
    have hkeeps := (add_spec ih (.buffer []) (Value.handle?_ofWord 1)).1.keeps ih
    have hshort : (⟨.ofNat n, #[]⟩ : Signature).size
        < (Index.empty (.ofCounts 1 1)).split.required := Nat.zero_lt_one
    have hslots : leadingSlots [.buffer []] = [#[]] := rfl
    rwa [hslots, Index.insertFrom, Index.insert_of_short _ hshort, Index.insertFrom] at hkeeps

/-- The number that lookups take for their own is never among the candidates. -/
theorem add_last (h : session.Keeps handle index Session.lookupId) {name value : Value}
    {slots : Array UInt64} (hname : name.handle? = some handle)
    (hslots : value.slots? = some slots) :
    (session.call .add ⟨[name, value]⟩).value.answer = .ok (.ofWord Session.lookupId)
      ∧ ∃ found, (session.call .add ⟨[name, value]⟩).value.session.candidatesOf name value
          = .ok (.list found) ∧ .ofWord Session.lookupId ∉ found := by
  obtain ⟨hadds, hanswer⟩ := add_spec h value hname
  rw [hslots, Option.isSome_some, if_pos rfl] at hanswer
  refine ⟨hanswer, _, candidatesOf_eq hname (hadds.keeps h).indexes hslots, ?_⟩
  rw [List.mem_map_of_injective Value.ofWord_injective, Index.query]
  split
  · exact fun hmem => absurd (List.mem_filter.mp hmem).2 (by simp)
  · exact List.not_mem_nil

/-- **Not every number leads back to its signature** — an empty buffer is given the number 0 and is
neither counted nor found; and after `2 ^ 32 - 1` additions a signature is given the number that
lookups take for their own, and it is not among its candidates. -/
theorem add_not_found :
    let session := (Session.start ⟨1, .info⟩).after oneByOne
    let short := (session.call .add ⟨[.ofWord 1, .buffer []]⟩).value
    let full := (Session.start ⟨1, .info⟩).after
      (oneByOne ++ List.replicate (2 ^ 32 - 1) addEmpty)
    let last := (full.call .add ⟨[.ofWord 1, .buffer (List.replicate 8 0)]⟩).value
    (short.answer = .ok (.ofWord 0)
        ∧ session.signatureCount (.ofWord 1) = .ok (.ofNat 0)
        ∧ short.session.signatureCount (.ofWord 1) = .ok (.ofNat 0)
        ∧ short.session.candidatesOf (.ofWord 1) (.buffer []) = .ok (.list []))
      ∧ last.answer = .ok (.ofWord Session.lookupId)
      ∧ ∃ found, last.session.candidatesOf (.ofWord 1) (.buffer (List.replicate 8 0))
          = .ok (.list found) ∧ .ofWord Session.lookupId ∉ found := by
  intro session short full last
  have hname := Value.handle?_ofWord 1
  have hkeeps := keeps_oneByOne ⟨1, .info⟩
  have hshort : short.session.indexes[(1 : Handle)]? = some (.empty (.ofCounts 1 1)) := by
    have hafter := (keeps_after_addEmpty ⟨1, .info⟩ 1).indexes
    rwa [List.replicate_one, Session.after_concat] at hafter
  have hfull : full.Keeps 1 (.empty (.ofCounts 1 1)) Session.lookupId :=
    keeps_after_addEmpty ⟨1, .info⟩ (2 ^ 32 - 1)
  have hslot : (Value.buffer (List.replicate 8 0)).slots? = some #[0] := rfl
  have hnone : (Value.buffer []).slots? = some #[] := rfl
  have hlast := add_last hfull hname hslot
  -- the long history must not be unfolded
  clear_value full
  refine ⟨⟨(add_spec hkeeps _ hname).2, signatureCount_eq hname hkeeps.indexes,
    signatureCount_eq hname hshort, ?_⟩, hlast⟩
  rw [candidatesOf_eq hname hshort hnone, Index.query_of_short _ (by decide)]
  rfl

end CodeClones.Script
