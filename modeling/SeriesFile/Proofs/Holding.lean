import SeriesFile.Proofs.Closing
import SeriesFile.Proofs.Merging

/-!
# Writers that hold everything

Until the points of a ledger reach a limit (`Ledger.Within`) nothing is written, and a writer is
nothing but its ledger: `Writer.holding` says what it is then, from its buffers to its counts.
Points are offered to such a writer as they are to the ledger, and it is such a writer again
(`Writer.performAll_holding`).

So whatever does not change the ledger does not change the writer. The ledger itself is a table of
accounts that know nothing of each other: what is in an account was offered to its series
(`Ledger.find?_after`).
-/

namespace SeriesFile

/-! ### Offers -/

/-- A point that is offered for a series. -/
structure Offer where
  key : SeriesKey
  time : Int64
  value : Value
  deriving DecidableEq

namespace Offer

def operation (offer : Offer) : Operation :=
  .write offer.key offer.time offer.value

/-- The offers to one series. -/
def ofSeries (key : SeriesKey) (offers : List Offer) : List Offer :=
  offers.filter fun offer => offer.key = key

end Offer

/-! ### Accounts -/

namespace Account

/-- The account with one more point, or why the point is refused. -/
def accept (a : Account) (time : Int64) (value : Value) : Except Fault Account :=
  if value.dataType ≠ a.dataType then .error (.typeMismatch a.dataType value.dataType)
  else
    match a.points.getLast? with
    | some last =>
      if time ≤ last.time then .error (.outOfOrder last.time time)
      else .ok { a with points := a.points ++ [⟨time, value⟩] }
    | none => .ok { a with points := a.points ++ [⟨time, value⟩] }

/-- The account after a point was offered. -/
def after (a : Account) (offer : Offer) : Account :=
  match a.accept offer.time offer.value with
  | .ok a => a
  | .error _ => a

/-- An account that accepts a point has its type, and has it at the end afterwards. -/
theorem accept_ok {a a' : Account} {time : Int64} {value : Value}
    (h : a.accept time value = .ok a') :
    value.dataType = a.dataType ∧ a' = { a with points := a.points ++ [⟨time, value⟩] } := by
  unfold accept at h
  split at h
  · contradiction
  · rename_i htype
    refine ⟨Decidable.not_not.1 htype, ?_⟩
    split at h
    · split at h
      · contradiction
      · exact (Except.ok.inj h).symm
    · exact (Except.ok.inj h).symm

/-- Offers do not change the type of an account. -/
@[simp]
theorem dataType_after (a : Account) (offer : Offer) : (a.after offer).dataType = a.dataType := by
  unfold after
  split
  · rename_i h
    rw [(accept_ok h).2]
  · rfl

end Account

namespace Ledger

/-- The ledger after operations. -/
def after (l : Ledger) (ops : List Operation) : Ledger :=
  (l.performAll ops).2

/-- No operations change nothing. -/
@[simp]
theorem after_nil (l : Ledger) : l.after [] = l := rfl

/-- Operations are performed from the first on. -/
@[simp]
theorem after_cons (l : Ledger) (op : Operation) (ops : List Operation) :
    l.after (op :: ops) = (l.perform op).2.after ops := rfl

/-- A ledger accepts what the account of the series accepts. -/
theorem accept_eq_account (l : Ledger) (key : SeriesKey) (time : Int64) (value : Value) :
    l.accept key time value =
      match l.find? key with
      | none => .error (.unknownSeries key)
      | some a => (a.accept time value).map (l.insert key) := by
  unfold accept
  cases l.find? key with
  | none => rfl
  | some a =>
    dsimp only
    unfold Account.accept
    split
    · rfl
    · cases a.points.getLast? with
      | none => rfl
      | some last =>
        dsimp only
        split
        · rfl
        · rfl

section

variable {l : Ledger} {offer : Offer} {a a' : Account} {fault : Fault}

/-- A series that the ledger does not have is refused. -/
theorem perform_of_unknown (h : l.find? offer.key = none) :
    l.perform offer.operation = (.error (.unknownSeries offer.key), l) := by
  show l.settle (l.accept offer.key offer.time offer.value) = _
  rw [accept_eq_account, h]
  rfl

/-- What the account refuses is refused, and the ledger stays. -/
theorem perform_of_refused (h : l.find? offer.key = some a)
    (ha : a.accept offer.time offer.value = .error fault) :
    l.perform offer.operation = (.error fault, l) := by
  show l.settle (l.accept offer.key offer.time offer.value) = _
  rw [accept_eq_account, h]
  dsimp only
  rw [ha]
  rfl

/-- What the account accepts is accepted, and only this account is another one. -/
theorem perform_of_accepted (h : l.find? offer.key = some a)
    (ha : a.accept offer.time offer.value = .ok a') :
    l.perform offer.operation = (.ok (), l.insert offer.key a') := by
  show l.settle (l.accept offer.key offer.time offer.value) = _
  rw [accept_eq_account, h]
  dsimp only
  rw [ha]
  rfl

end

/-- An offer changes the account of its series only. -/
theorem find?_offer (l : Ledger) (offer : Offer) (key : SeriesKey) :
    (l.perform offer.operation).2.find? key =
      if offer.key = key then (l.find? key).map (·.after offer) else l.find? key := by
  -- Three cases: an unknown series, whose accounts all stay; a refused value, after which the
  -- account is the one it was; and an accepted one, after which `insert` has changed this account
  -- only.
  cases hfind : l.find? offer.key with
  | none =>
    rw [perform_of_unknown hfind]
    show l.find? key = _
    split
    · rename_i hkey
      rw [← hkey, hfind]
      rfl
    · rfl
  | some a =>
    cases ha : a.accept offer.time offer.value with
    | error fault =>
      have hsame : a.after offer = a := by rw [Account.after, ha]
      rw [perform_of_refused hfind ha]
      show l.find? key = _
      split
      · rename_i hkey
        rw [← hkey, hfind, Option.map_some, hsame]
      · rfl
    | ok a' =>
      have hafter : a.after offer = a' := by rw [Account.after, ha]
      rw [perform_of_accepted hfind ha]
      show (l.insert offer.key a').find? key = _
      rw [SeriesTable.find?_insert]
      split
      · rename_i hkey
        rw [← hkey, hfind, Option.map_some, hafter]
      · rfl

/-- What was offered to a series, and nothing else, makes its account. -/
theorem find?_after (l : Ledger) (offers : List Offer) (key : SeriesKey) :
    (l.after (offers.map Offer.operation)).find? key =
      (l.find? key).map fun a => (Offer.ofSeries key offers).foldl Account.after a := by
  induction offers generalizing l with
  | nil => simp [Offer.ofSeries]
  | cons offer offers ih =>
    rw [List.map_cons, after_cons, ih, find?_offer]
    -- Only an offer to this series is one to its account.
    by_cases hkey : offer.key = key
    · simp [hkey, Offer.ofSeries, Function.comp_def]
    · simp [hkey, Offer.ofSeries]

/-- How offers to different series are interleaved leaves no trace in a ledger. -/
theorem after_congr {offers offers' : List Offer}
    (h : ∀ key, Offer.ofSeries key offers = Offer.ofSeries key offers') (l : Ledger) :
    l.after (offers.map Offer.operation) = l.after (offers'.map Offer.operation) := by
  apply SeriesTable.ext_find?
  intro key
  rw [find?_after, find?_after, h key]

/-! ### Limits -/

/-- The points of a ledger reach no limit: no series has the points or the bytes of a chunk, and all
series together have no more bytes than may be buffered. -/
structure Within (l : Ledger) (options : Options) : Prop where
  points : ∀ a ∈ l.values, a.points.length < options.maxChunkPoints
  bytes : ∀ a ∈ l.values, Buffer.costs a.points < options.maxChunkBytes
  buffered : (l.values.map fun a => Buffer.costs a.points).sum ≤ options.maxBufferedBytes

/-- Where no limit is reached with more points in one account, none was before. -/
theorem Within.of_insert {l : Ledger} {options : Options} {key : SeriesKey} {a a' : Account}
    (ha : l.find? key = some a) (hlength : a.points.length ≤ a'.points.length)
    (hcosts : Buffer.costs a.points ≤ Buffer.costs a'.points)
    (h : Within (l.insert key a') options) : l.Within options := by
  have hsum := SeriesTable.sum_insert ha a' fun a => Buffer.costs a.points
  -- Every account is still there, with its points or with those of the new one.
  have hgrown (other : Account) (ho : other ∈ l.values) :
      ∃ grown ∈ SeriesTable.values (l.insert key a'),
        other.points.length ≤ grown.points.length ∧
          Buffer.costs other.points ≤ Buffer.costs grown.points := by
    obtain ⟨k, hk⟩ := SeriesTable.mem_values_iff.1 ho
    have hfind := SeriesTable.find?_insert l key k a'
    by_cases heq : key = k
    · subst heq
      obtain rfl := Option.some.inj (ha.symm.trans hk)
      rw [if_pos rfl] at hfind
      exact ⟨a', SeriesTable.mem_values_iff.2 ⟨key, hfind⟩, hlength, hcosts⟩
    · rw [if_neg heq, hk] at hfind
      exact ⟨other, SeriesTable.mem_values_iff.2 ⟨k, hfind⟩, Nat.le_refl _, Nat.le_refl _⟩
  constructor
  case points =>
    intro other ho
    obtain ⟨grown, hg, hlength, -⟩ := hgrown other ho
    exact Nat.lt_of_le_of_lt hlength (h.points grown hg)
  case bytes =>
    intro other ho
    obtain ⟨grown, hg, -, hcosts⟩ := hgrown other ho
    exact Nat.lt_of_le_of_lt hcosts (h.bytes grown hg)
  case buffered =>
    have hbuffered := h.buffered
    omega

/-- Points are only ever added, so where no limit is reached in the end none was on the way. -/
theorem Within.of_offer {l : Ledger} {options : Options} {offer : Offer}
    (h : (l.perform offer.operation).2.Within options) : l.Within options := by
  cases hfind : l.find? offer.key with
  | none =>
    rw [perform_of_unknown hfind] at h
    exact h
  | some a =>
    cases ha : a.accept offer.time offer.value with
    | error fault =>
      rw [perform_of_refused hfind ha] at h
      exact h
    | ok a' =>
      rw [perform_of_accepted hfind ha] at h
      obtain ⟨-, rfl⟩ := Account.accept_ok ha
      apply Within.of_insert hfind _ _ h
      · rw [List.length_append]
        exact Nat.le_add_right _ _
      · rw [Buffer.costs_append]
        exact Nat.le_add_right _ _

/-- The same of any number of offers. -/
theorem Within.of_after {l : Ledger} {options : Options} {offers : List Offer}
    (h : (l.after (offers.map Offer.operation)).Within options) : l.Within options := by
  induction offers generalizing l with
  | nil => exact h
  | cons offer offers ih => exact (ih h).of_offer

end Ledger

/-! ### Buffers of points -/

/-- One more value of its type goes to the end of a column. -/
theorem Column.push?_ofValues {type : DataType} {v : Value} (h : v.dataType = type)
    (vs : List Value) : (ofValues type vs).push? v = some (ofValues type (vs ++ [v])) := by
  -- With the type of the value in its place every case computes.
  subst h
  cases v <;> simp [ofValues, push?, Value.dataType]

namespace Buffer

/-- The buffer of a series that has the given points, none of which was written. -/
def holding (schema : Schema) (points : List Point) : Buffer where
  schema := schema
  times := points.map Point.time
  column := Column.ofValues schema.dataType (points.map Point.value)
  rawBytes := costs points
  lastTime := points.getLast?.map Point.time
  phase := if points.isEmpty then .empty else .accumulating

/-- Without points this is a new buffer. -/
theorem holding_nil (schema : Schema) : holding schema [] = new schema := by
  obtain ⟨dataType, encoding, compression⟩ := schema
  cases dataType <;> rfl

/-- It has as many points as the account. -/
@[simp]
theorem length_holding (schema : Schema) (points : List Point) :
    (holding schema points).length = points.length :=
  List.length_map _

/-- A buffer takes the points that the account takes. -/
theorem check_holding {schema : Schema} {a : Account} (h : a.dataType = schema.dataType)
    (time : Int64) (value : Value) :
    (holding schema a.points).check time value = (a.accept time value).map fun _ => () := by
  have hschema : (holding schema a.points).schema = schema := rfl
  have hlast : (holding schema a.points).lastTime = a.points.getLast?.map Point.time := rfl
  unfold check Account.accept
  rw [h, hschema, hlast]
  split
  · rfl
  · cases a.points.getLast? with
    | none => rfl
    | some last =>
      dsimp only [Option.map_some]
      split
      · rfl
      · rfl

/-- A point that a buffer takes goes to its end, and costs what it costs in the account. -/
theorem append_holding {schema : Schema} {points : List Point} {time : Int64} {value : Value}
    (htype : value.dataType = schema.dataType)
    (h : (holding schema points).check time value = .ok ()) :
    (holding schema points).append time value =
      .ok (cost value, holding schema (points ++ [⟨time, value⟩])) := by
  have hpush : (holding schema points).column.push? value =
      some (Column.ofValues schema.dataType (points.map Point.value ++ [value])) :=
    Column.push?_ofValues htype _
  rw [append, h, ok_bind, hpush]
  simp [holding, costs]
  rfl

end Buffer

/-! ### Writers -/

namespace SeriesTable

variable {α β : Type}

/-- The table with something else for every series, which may depend on the series. -/
def mapByKey (f : SeriesKey → α → β) (t : SeriesTable α) : SeriesTable β :=
  ⟨t.entries.map fun (entry : SeriesKey × α) => (entry.1, f entry.1 entry.2),
    List.pairwise_map.2 t.ascending⟩

/-- What is found under a series is made from what was found there. -/
@[simp]
theorem find?_mapByKey (f : SeriesKey → α → β) (t : SeriesTable α) (key : SeriesKey) :
    (t.mapByKey f).find? key = (t.find? key).map (f key) := by
  simp only [find?, mapByKey, List.find?_map, Function.comp_def, Option.map_map]
  cases hfound : t.entries.find? fun entry => entry.1 = key with
  | none => rfl
  | some entry =>
    -- The entry that is found has the series that was looked for.
    have hkey : entry.1 = key := by simpa using List.find?_some hfound
    rw [Option.map_some, Option.map_some, hkey]

end SeriesTable

/-- A ledger has the series of a registry, with their types. -/
def Ledger.Of (registry : Registry) (ledger : Ledger) : Prop :=
  ∀ key, (ledger.find? key).map Account.dataType = (registry.find? key).map Schema.dataType

namespace Ledger.Of

variable {registry : Registry} {ledger : Ledger}

/-- A new ledger has the series of its registry. -/
theorem new (registry : Registry) : Ledger.Of registry (Ledger.new registry) := by
  intro key
  rw [Ledger.new, SeriesTable.find?_map, Option.map_map]
  rfl

/-- Offers neither add series nor change types. -/
theorem offer (h : ledger.Of registry) (offer : Offer) :
    (ledger.perform offer.operation).2.Of registry := by
  intro key
  rw [find?_offer]
  split
  · rw [Option.map_map, ← h key]
    simp [Function.comp_def]
  · exact h key

/-- A series of the ledger is registered with the type of its account. -/
theorem find?_schema (h : ledger.Of registry) {key : SeriesKey} {a : Account}
    (ha : ledger.find? key = some a) :
    ∃ schema, registry.find? key = some schema ∧ a.dataType = schema.dataType := by
  have hkey := h key
  rw [ha, Option.map_some, eq_comm, Option.map_eq_some_iff] at hkey
  obtain ⟨schema, hschema, htype⟩ := hkey
  exact ⟨schema, hschema, htype.symm⟩

/-- A series that the ledger does not have is not registered. -/
theorem find?_eq_none (h : ledger.Of registry) {key : SeriesKey} (ha : ledger.find? key = none) :
    registry.find? key = none := by
  have hkey := h key
  rw [ha, Option.map_none, eq_comm, Option.map_eq_none_iff] at hkey
  exact hkey

end Ledger.Of

namespace Writer

variable {σ : Type}

/-- The writer that holds the points of a ledger, none of which was written. -/
def holding (w : Writer σ) (ledger : Ledger) : Writer σ :=
  { w with
    buffers := w.registry.mapByKey fun key schema => Buffer.holding schema (ledger.points key)
    bufferedBytes := (ledger.values.map fun a => Buffer.costs a.points).sum
    pointsWritten := (ledger.values.map fun a => a.points.length).sum }

variable {w : Writer σ} {ledger : Ledger}

/-- The buffer of a series is the one of its account. -/
theorem find?_holding {key : SeriesKey} {schema : Schema} {a : Account}
    (hschema : w.registry.find? key = some schema) (ha : ledger.find? key = some a) :
    (w.holding ledger).buffers.find? key = some (Buffer.holding schema a.points) := by
  show (w.registry.mapByKey _).find? key = _
  rw [SeriesTable.find?_mapByKey, hschema, Option.map_some, Ledger.points, ha]
  rfl

/-- A point that goes to the buffer of its series goes to its account. -/
theorem holding_insert {key : SeriesKey} {schema : Schema} {a : Account} {p : Point}
    (hschema : w.registry.find? key = some schema) (ha : ledger.find? key = some a) :
    { w.holding ledger with
      buffers := (w.holding ledger).buffers.insert key (Buffer.holding schema (a.points ++ [p]))
      bufferedBytes := (w.holding ledger).bufferedBytes + Buffer.cost p.value
      pointsWritten := (w.holding ledger).pointsWritten + 1 } =
    w.holding (ledger.insert key { a with points := a.points ++ [p] }) := by
  -- Both counts are sums over the accounts, of which one has changed.
  have hbytes := SeriesTable.sum_insert ha { a with points := a.points ++ [p] }
    fun a => Buffer.costs a.points
  have hpoints := SeriesTable.sum_insert ha { a with points := a.points ++ [p] }
    fun a => a.points.length
  have hcost : Buffer.costs (a.points ++ [p]) = Buffer.costs a.points + Buffer.cost p.value := by
    rw [Buffer.costs_append]
    rfl
  rw [hcost] at hbytes
  rw [List.length_append, List.length_singleton] at hpoints
  have hbuffers : (w.holding ledger).buffers.insert key
        (Buffer.holding schema (a.points ++ [p])) =
      (w.holding (ledger.insert key { a with points := a.points ++ [p] })).buffers := by
    apply SeriesTable.ext_find?
    intro k
    rw [SeriesTable.find?_insert]
    show (if key = k then _ else (w.registry.mapByKey _).find? k) = (w.registry.mapByKey _).find? k
    rw [SeriesTable.find?_mapByKey, SeriesTable.find?_mapByKey, Ledger.points, Ledger.points,
      SeriesTable.find?_insert]
    split
    · rename_i hkey
      rw [← hkey, hschema]
      rfl
    · rfl
  have hbufferedBytes : (w.holding ledger).bufferedBytes + Buffer.cost p.value =
      (w.holding (ledger.insert key { a with points := a.points ++ [p] })).bufferedBytes := by
    show (ledger.values.map _).sum + _ = ((ledger.insert key _).values.map _).sum
    omega
  have hpointsWritten : (w.holding ledger).pointsWritten + 1 =
      (w.holding (ledger.insert key { a with points := a.points ++ [p] })).pointsWritten := by
    show (ledger.values.map _).sum + _ = ((ledger.insert key _).values.map _).sum
    omega
  rw [hbuffers, hbufferedBytes, hpointsWritten]
  rfl

variable [Sink σ] [Compressor]

omit [Compressor] in
/-- A new writer holds nothing yet. -/
theorem holding_of_start {sink : σ} {registry : Registry} {options : Options}
    (h : start sink registry options = .ok w) : w.holding (Ledger.new registry) = w := by
  -- Nothing that is counted over accounts without points is more than zero.
  have hnone (f : Account → Nat) (hf : ∀ type, f ⟨type, []⟩ = 0) :
      ((Ledger.new registry).values.map f).sum = 0 := by
    apply SeriesTable.sum_eq_zero
    intro key a ha
    rw [Ledger.new, SeriesTable.find?_map] at ha
    obtain ⟨schema, -, rfl⟩ := Option.map_eq_some_iff.1 ha
    exact hf schema.dataType
  have hbuffers : (registry.mapByKey fun key schema =>
      Buffer.holding schema ((Ledger.new registry).points key)) = registry.map Buffer.new := by
    apply SeriesTable.ext_find?
    intro key
    rw [SeriesTable.find?_mapByKey, SeriesTable.find?_map, Ledger.points, Ledger.new,
      SeriesTable.find?_map]
    cases registry.find? key with
    | none => rfl
    | some schema => exact congrArg some (Buffer.holding_nil schema)
  unfold start at h
  split at h
  · contradiction
  split at h
  · contradiction
  obtain rfl := Except.ok.inj h
  rw [holding, hbuffers, hnone _ fun _ => rfl, hnone _ fun _ => rfl]

/-- A point that does not reach a limit is only buffered. -/
theorem write_holding {key : SeriesKey} {time : Int64} {value : Value} {schema : Schema}
    {a a' : Account} (hs : w.state = .active) (hschema : w.registry.find? key = some schema)
    (htype : a.dataType = schema.dataType) (ha : ledger.find? key = some a)
    (haccept : a.accept time value = .ok a') (hw : Ledger.Within (ledger.insert key a') w.options) :
    write key time value (w.holding ledger) = .ok () (w.holding (ledger.insert key a')) := by
  have hcheck := Buffer.check_holding htype time value
  obtain ⟨hvalue, rfl⟩ := Account.accept_ok haccept
  rw [haccept] at hcheck
  have happend := Buffer.append_holding (hvalue.trans htype) hcheck
  have hbuffer := buffer_ok (find?_holding hschema ha) happend
  rw [holding_insert (p := ⟨time, value⟩) hschema ha] at hbuffer
  generalize hnew : ledger.insert key { a with points := a.points ++ [⟨time, value⟩] } = ledger'
    at hw hbuffer
  have hmem : { a with points := a.points ++ [⟨time, value⟩] } ∈ ledger'.values := by
    rw [← hnew]
    refine SeriesTable.mem_values_iff.2 ⟨key, ?_⟩
    rw [SeriesTable.find?_insert, if_pos rfl]
  -- The chunk is not full, so no flush follows the point.
  have hfull : (Buffer.holding schema (a.points ++ [⟨time, value⟩])).isFull w.options = false := by
    have hpoints := hw.points _ hmem
    have hbytes := hw.bytes _ hmem
    rw [Buffer.isFull, Buffer.length_holding, Bool.or_eq_false_iff, decide_eq_false_iff_not,
      decide_eq_false_iff_not, Nat.not_le, Nat.not_le]
    exact ⟨hpoints, hbytes⟩
  -- Nor is there pressure to relieve.
  have hrelieve : relievePressure (w.holding ledger') = .ok () (w.holding ledger') := by
    have hget : (get : Action σ (Writer σ)) (w.holding ledger') =
        .ok (w.holding ledger') (w.holding ledger') := rfl
    have hbound : (w.holding ledger').bufferedBytes ≤ (w.holding ledger').options.maxBufferedBytes :=
      hw.buffered
    rw [relievePressure, bind_ok hget, if_pos hbound]
    rfl
  have hopen : ensureOpen (w.holding ledger) = .ok () (w.holding ledger) := ensureOpen_ok hs
  have hoptions : (w.holding ledger).options = w.options := rfl
  rw [hoptions, hfull] at hbuffer
  rw [write, bind_ok hopen, bind_ok hbuffer]
  exact hrelieve

variable [Logarithm]

/-- As long as no limit is reached, a writer answers an offer as the ledger does and holds what the
ledger holds. -/
theorem perform_holding (hs : w.state = .active) (hl : ledger.Of w.registry) (offer : Offer)
    (hw : (ledger.perform offer.operation).2.Within w.options) :
    (w.holding ledger).perform offer.operation =
      ((ledger.perform offer.operation).1, w.holding (ledger.perform offer.operation).2) := by
  have hopen : ensureOpen (w.holding ledger) = .ok () (w.holding ledger) := ensureOpen_ok hs
  cases ha : ledger.find? offer.key with
  | none =>
    -- A series that the ledger does not know has no buffer either.
    have hfind : (w.holding ledger).buffers.find? offer.key = none := by
      show (w.registry.mapByKey _).find? offer.key = none
      rw [SeriesTable.find?_mapByKey, hl.find?_eq_none ha]
      rfl
    have hwrite : action offer.operation (w.holding ledger) =
        .error (.unknownSeries offer.key) (w.holding ledger) := by
      rw [Offer.operation, action, write, bind_ok hopen]
      exact bind_error (buffer_unknown hfind)
    rw [Ledger.perform_of_unknown ha]
    exact perform_error hwrite
  | some a =>
    obtain ⟨schema, hschema, htype⟩ := hl.find?_schema ha
    cases haccept : a.accept offer.time offer.value with
    | error fault =>
      have hcheck := Buffer.check_holding htype offer.time offer.value
      rw [haccept] at hcheck
      have happend : (Buffer.holding schema a.points).append offer.time offer.value =
          .error fault := by
        rw [Buffer.append, hcheck]
        rfl
      have hwrite : action offer.operation (w.holding ledger) =
          .error fault (w.holding ledger) := by
        rw [Offer.operation, action, write, bind_ok hopen]
        exact bind_error (buffer_error (find?_holding hschema ha) happend)
      rw [Ledger.perform_of_refused ha haccept]
      exact perform_error hwrite
    | ok a' =>
      rw [Ledger.perform_of_accepted ha haccept] at hw ⊢
      exact perform_ok (write_holding hs hschema htype ha haccept hw)

/-- Offers that reach no limit are answered as the ledger answers them, and afterwards the writer
holds what the ledger holds. -/
theorem performAll_holding (hs : w.state = .active) (hl : ledger.Of w.registry)
    {offers : List Offer}
    (hw : (ledger.after (offers.map Offer.operation)).Within w.options) :
    (w.holding ledger).performAll (offers.map Offer.operation) =
      ((ledger.performAll (offers.map Offer.operation)).1,
        w.holding (ledger.after (offers.map Offer.operation))) := by
  induction offers generalizing ledger with
  | nil => rfl
  | cons offer offers ih =>
    rw [List.map_cons, Ledger.after_cons] at hw
    -- The limits hold at the end, so they held after the first offer.
    have hstep := perform_holding hs hl offer hw.of_after
    have hrest := ih (hl.offer offer) hw
    simp only [List.map_cons, performAll, Ledger.performAll, Ledger.after_cons, hstep, hrest]

end Writer

end SeriesFile
