import Hoglet.Capture.Event
import Hoglet.Checks

/-! What is sure of every event that a body is accepted with, and what only the well-meant ones keep. -/
namespace Hoglet.Capture
open Json
variable {ν U : Type} {K : Crates ν U}

/-- The bounds that what comes after capture relies on. -/
structure CapturedEvent.Within (now : DateTime) (e : CapturedEvent ν U) : Prop where
  timestamp : e.timestamp.ns ≤ now.ns + hours maxFutureHours
  notBlank : isBlank e.distinctId = false
  short : e.distinctId.toList.length ≤ maxDistinctIdChars
  noNul : '\x00' ∉ e.distinctId.toList
  named : e.event ≠ ""
  token : validateToken e.token = .ok ()

/-- The distinct id that an event is sent with. -/
def sentDistinctId (obj : Map ν) : Option (Value ν) :=
  (obj.get "distinct_id").or <| (obj.get "$distinct_id").or <|
    match obj.get "properties" with
    | some (.object members) => (Map.ofWritten members).get "distinct_id"
    | _ => none

def idText (K : Crates ν U) : Value ν → List Char
  | .string s => s.toList
  | other => print K.numbers other

/-- An event whose offset is not of more than 23 hours ahead, and whose distinct id has more than blanks where it is kept. -/
structure Plain (K : Crates ν U) (obj : Map ν) : Prop where
  offset : ∀ offset, (obj.get "offset").bind (asI64 K) = some offset → -(maxFutureHours * 3600000) ≤ offset.toInt
  distinctId : ∀ v, sentDistinctId obj = some v → ((idText K v).take maxDistinctIdChars).all isTrimmed = false

/-! One event. -/
section event

theorem resolveToken_ok {obj properties : Map ν} {batchToken : Option String} {token : String}
    (h : resolveToken obj properties batchToken = .ok token) : validateToken token = .ok () := by
  unfold resolveToken at h
  dsimp only at h
  split at h
  · cases h
  · split at h
    · cases h
    · rename_i hvalid
      cases h
      exact hvalid

private theorem isTrimmed_replaced (c : Char) : isTrimmed (if c = '\x00' then '\uFFFD' else c) = isTrimmed c := by
  split
  · rename_i h
    subst h
    decide
  · rfl

/-- A distinct id is what is kept of the one sent, without NULs. -/
theorem resolveDistinctId_ok {obj properties : Map ν} {id : String} (h : resolveDistinctId K obj properties = .ok id) :
    ∃ v, ((obj.get "distinct_id").or <| (obj.get "$distinct_id").or <| properties.get "distinct_id") = some v ∧
      id.toList = ((idText K v).take maxDistinctIdChars).map fun c => if c = '\x00' then '\uFFFD' else c := by
  unfold resolveDistinctId at h
  dsimp only at h
  have hfinish : ∀ s : List Char, (if (s.map fun c => if c = '\x00' then '\uFFFD' else c).all isTrimmed then
      Except.error (CaptureError.malformed "empty distinct_id")
      else .ok (String.ofList ((s.map fun c => if c = '\x00' then '\uFFFD' else c).take maxDistinctIdChars))) = .ok id →
      id.toList = (s.take maxDistinctIdChars).map fun c => if c = '\x00' then '\uFFFD' else c := by
    intro s hs
    split at hs
    · cases hs
    · cases hs
      rw [String.toList_ofList, List.map_take]
  split at h
  · cases h
  · cases h
  · rename_i s hget
    exact ⟨_, hget, hfinish _ h⟩
  · rename_i other hnull hstring hget
    refine ⟨other, hget, ?_⟩
    have htext : idText K other = print K.numbers other := by
      cases other with
      | string s => exact absurd rfl (hstring s)
      | _ => rfl
    rw [htext]
    exact hfinish _ h

private theorem offset_iff {t now : DateTime} {offset : Int} (h : (tryMilliseconds offset).bind now.checkedSubSigned = some t) :
    t.ns ≤ now.ns + hours maxFutureHours ↔ -(maxFutureHours * 3600000) ≤ offset := by
  obtain ⟨duration, hms, hsub⟩ := Option.bind_eq_some_iff.mp h
  rw [tryMilliseconds] at hms
  split at hms
  · cases hms
  · cases hms
    rw [DateTime.checkedSubSigned, DateTime.ofNs] at hsub
    split at hsub
    · cases hsub
      simp only [hours, maxFutureHours, nsPerMs]
      omega
    · cases hsub

/-- Only an offset can lead past the 23 hours. -/
theorem resolveTimestamp_ok {obj properties : Map ν} {sentAt : Option DateTime} {now t : DateTime}
    (h : resolveTimestamp K obj properties sentAt now = .ok t) : t.ns ≤ now.ns + hours maxFutureHours ↔
      ∀ offset, (obj.get "offset").bind (asI64 K) = some offset → -(maxFutureHours * 3600000) ≤ offset.toInt := by
  have hahead : 0 ≤ hours maxFutureHours := by decide
  unfold resolveTimestamp at h
  split at h
  · rename_i offset hoffset
    split at h
    · rename_i hsub
      cases h
      rw [offset_iff hsub, hoffset]
      simp
    · cases h
  · rename_i hoffset
    simp only [hoffset, reduceCtorEq, false_implies, implies_true, iff_true]
    split at h
    · cases h
      omega
    · split at h
      · cases h
      · dsimp only at h
        split at h
        · cases h
        · cases h
          split
          · omega
          · omega

/-- Folding a key changes nothing under other keys. -/
private theorem foldKey_get {key k : String} (h : k ≠ key) (obj properties : Map ν) :
    (foldKey key obj properties).1.get k = obj.get k ∧ (foldKey key obj properties).2.get k = properties.get k := by
  rw [foldKey]
  split
  · exact ⟨rfl, rfl⟩
  · refine ⟨Map.get_remove_ne obj h, ?_⟩
    dsimp only
    split
    · rfl
    · exact Map.get_insert_ne properties _ h

/-- What an event is made of. -/
structure Made (K : Crates ν U) (obj : Map ν) (sentAt : Option DateTime) (now : DateTime) (e : CapturedEvent ν U) : Prop where
  named : e.event ≠ ""
  token : validateToken e.token = .ok ()
  distinctId : ∃ v, sentDistinctId obj = some v ∧
    e.distinctId.toList = ((idText K v).take maxDistinctIdChars).map fun c => if c = '\x00' then '\uFFFD' else c
  timestamp : e.timestamp.ns ≤ now.ns + hours maxFutureHours ↔
    ∀ offset, (obj.get "offset").bind (asI64 K) = some offset → -(maxFutureHours * 3600000) ≤ offset.toInt

/-- `resolveEvent` once it has the name and the properties. -/
private def resolveRest (K : Crates ν U) (newV7 : DateTime → U) (obj properties : Map ν) (batchToken : Option String)
    (sentAt : Option DateTime) (now : DateTime) (name : String) : Except CaptureError (CapturedEvent ν U) := do
  let obj := obj.remove "properties"
  let (obj, properties) := foldKey "$set" obj properties
  let (obj, properties) := foldKey "$set_once" obj properties
  let token ← resolveToken obj properties batchToken
  let distinctId ← resolveDistinctId K obj properties
  let timestamp ← resolveTimestamp K obj properties sentAt now
  let uuid ← match (obj.get "uuid").bind Value.asStr with
    | some s => match K.parseUuid s with
      | some u => pure u
      | none => throw (.malformed "invalid uuid")
    | none => pure (newV7 timestamp)
  return { uuid, event := name, distinctId, token, timestamp, properties }

variable {newV7 : DateTime → U} {obj properties : Map ν} {batchToken : Option String} {sentAt : Option DateTime} {now : DateTime}
  {e : CapturedEvent ν U}

private theorem resolveRest_ok {name : String} (h : resolveRest K newV7 obj properties batchToken sentAt now name = .ok e)
    (hname : name ≠ "")
    (hsent : sentDistinctId obj = ((obj.get "distinct_id").or <| (obj.get "$distinct_id").or <| properties.get "distinct_id")) :
    Made K obj sentAt now e := by
  unfold resolveRest at h
  dsimp only at h
  have hset := fun (k : String) (hk : k ≠ "$set") => foldKey_get hk (obj.remove "properties") properties
  generalize foldKey "$set" (obj.remove "properties") properties = folded at h hset
  obtain ⟨obj', properties'⟩ := folded
  dsimp only at h hset
  have honce := fun (k : String) (hk : k ≠ "$set_once") => foldKey_get hk obj' properties'
  generalize foldKey "$set_once" obj' properties' = folded at h honce
  obtain ⟨obj'', properties''⟩ := folded
  dsimp only at h honce
  have hobj : ∀ k, k ≠ "properties" → k ≠ "$set" → k ≠ "$set_once" → obj''.get k = obj.get k := fun k hp hs ho => by
    rw [(honce k ho).1, (hset k hs).1, Map.get_remove_ne obj hp]
  have hprops : ∀ k, k ≠ "$set" → k ≠ "$set_once" → properties''.get k = properties.get k := fun k hs ho => by
    rw [(honce k ho).2, (hset k hs).2]
  obtain ⟨token, htoken, h⟩ := bind_ok.mp h
  obtain ⟨distinctId, hid, h⟩ := bind_ok.mp h
  obtain ⟨timestamp, htime, h⟩ := bind_ok.mp h
  have htimestamp := resolveTimestamp_ok htime
  obtain ⟨v, hv, htext⟩ := resolveDistinctId_ok hid
  rw [hobj "offset" (by decide) (by decide) (by decide)] at htimestamp
  rw [hobj "distinct_id" (by decide) (by decide) (by decide), hobj "$distinct_id" (by decide) (by decide) (by decide),
    hprops "distinct_id" (by decide) (by decide), ← hsent] at hv
  have hmade : ∀ uuid, Made K obj sentAt now ⟨uuid, name, distinctId, token, timestamp, properties''⟩ := fun uuid =>
    ⟨hname, resolveToken_ok htoken, ⟨v, hv, htext⟩, htimestamp⟩
  split at h
  · split at h
    · cases h
      exact hmade _
    · cases h
  · cases h
    exact hmade _

theorem resolveEvent_ok (h : resolveEvent K newV7 obj batchToken sentAt now = .ok e) : Made K obj sentAt now e := by
  unfold resolveEvent at h
  dsimp only at h
  split at h
  · split at h
    · cases h
    · rename_i hname
      split at h
      · rename_i members hget
        exact resolveRest_ok h hname (by rw [sentDistinctId, hget])
      · cases h
      · rename_i hget
        exact resolveRest_ok h hname (by rw [sentDistinctId, hget]; rfl)
  · cases h

/-- An event keeps the bounds exactly if it is plain. -/
theorem Made.within_iff (h : Made K obj sentAt now e) :
    e.Within now ↔ Plain K obj := by
  obtain ⟨v, hv, htext⟩ := h.distinctId
  have hblank : isBlank e.distinctId = ((idText K v).take maxDistinctIdChars).all isTrimmed := by
    rw [isBlank, htext, List.all_map]
    congr 1
    funext c
    exact isTrimmed_replaced c
  constructor
  · intro hwithin
    refine ⟨h.timestamp.mp hwithin.timestamp, fun v' hv' => ?_⟩
    obtain rfl := Option.some.inj (hv.symm.trans hv')
    exact hblank.symm.trans hwithin.notBlank
  · intro hplain
    refine ⟨h.timestamp.mpr hplain.offset, hblank.trans (hplain.distinctId v hv), ?_, ?_, h.named, h.token⟩
    · rw [htext, List.length_map]
      exact List.length_take_le _ _
    · rw [htext]
      intro hnul
      obtain ⟨c, -, hc⟩ := List.mem_map.mp hnul
      split at hc
      · exact absurd hc (by decide)
      · rename_i hne
        exact hne hc

end event

/-! A body. -/
section body

/-- The objects among the events of a body, without those that are dropped. -/
def keptEvents : List (Value ν) → List (Map ν)
  | [] => []
  | .object members :: rest =>
    if ((Map.ofWritten members).get "event").bind Value.asStr = some "$performance_event" then keptEvents rest
    else Map.ofWritten members :: keptEvents rest
  | _ :: rest => keptEvents rest

/-- The events of a body in any of its shapes. -/
def sentEvents (K : Crates ν U) (body : String) : List (Map ν) :=
  match parse K.numbers recursionBudget body.toList with
  | some (.array events) => keptEvents events
  | some (.object members) =>
    let obj := Map.ofWritten members
    match obj.get "batch" with
    | some (.array events) => keptEvents events
    | some _ => []
    | none => keptEvents [.object (if obj.contains "event" then obj else obj.insert "event" (.string "$identify")).members]
  | _ => []

variable {newV7 : Nat → DateTime → U} {sentAt : Option DateTime} {now : DateTime}

theorem resolveEvents_ok {batchToken : Option String} {i : Nat} {raws : List (Value ν)} {events : List (CapturedEvent ν U)}
    (h : resolveEvents K newV7 batchToken sentAt now i raws = .ok events) :
    List.Forall₂ (fun obj e => Made K obj sentAt now e) (keptEvents raws) events := by
  induction raws generalizing i events with
  | nil =>
    cases h
    exact .nil
  | cons raw rest ih =>
    cases raw with
    | object members =>
      rw [resolveEvents] at h
      rw [keptEvents]
      split at h
      · rename_i hdropped
        rw [if_pos hdropped]
        exact ih h
      · rename_i hkept
        rw [if_neg hkept]
        obtain ⟨e, he, h⟩ := bind_ok.mp h
        obtain ⟨others, hothers, h⟩ := bind_ok.mp h
        cases h
        exact .cons (resolveEvent_ok he) (ih hothers)
    | _ => cases h

/-- Each event of a batch is made of one that was sent. -/
theorem parseBody_ok {body : String} {sentAtQuery : Option DateTime} {batch : ParsedBatch ν U} (h : parseBody K newV7 body sentAtQuery now = .ok batch) :
    ∃ sentAt, List.Forall₂ (fun obj e => Made K obj sentAt now e) (sentEvents K body) batch.events := by
  unfold parseBody at h
  rw [sentEvents]
  split at h
  · cases h
  · rename_i events hparse
    rw [hparse]
    obtain ⟨events, hevents, h⟩ := bind_ok.mp h
    cases h
    exact ⟨_, resolveEvents_ok hevents⟩
  · rename_i members hparse
    rw [hparse]
    dsimp only at h ⊢
    cases hbatch : (Map.ofWritten members).get "batch" with
    | none =>
      rw [hbatch] at h
      obtain ⟨events, hevents, h⟩ := bind_ok.mp h
      cases h
      exact ⟨_, resolveEvents_ok hevents⟩
    | some value =>
      rw [hbatch] at h
      cases value with
      | array events =>
        obtain ⟨events, hevents, h⟩ := bind_ok.mp h
        cases h
        exact ⟨_, resolveEvents_ok hevents⟩
      | _ => cases h
  · cases h

/-- A batch keeps the bounds exactly if all its events are plain. -/
theorem parseBody_within_iff {body : String} {sentAtQuery : Option DateTime} {batch : ParsedBatch ν U}
    (h : parseBody K newV7 body sentAtQuery now = .ok batch) :
    (∀ e ∈ batch.events, e.Within now) ↔ ∀ obj ∈ sentEvents K body, Plain K obj := by
  obtain ⟨sentAt, hmade⟩ := parseBody_ok h
  generalize sentEvents K body = objs at hmade
  generalize batch.events = events at hmade
  induction hmade with
  | nil => simp
  | cons hfirst _ ih => rw [List.forall_mem_cons, List.forall_mem_cons, hfirst.within_iff, ih]

/-- An event of 25 hours ahead. -/
def aheadBody : String := "\x7b\"event\":\"a\",\"distinct_id\":\"u\",\"token\":\"phc_t\",\"offset\":-90000000\x7d"

/-- A distinct id of 200 blanks and a letter. -/
def blankBody : String :=
  String.ofList ("\x7b\"event\":\"a\",\"token\":\"phc_t\",\"distinct_id\":\"".toList ++ List.replicate 200 ' ' ++ ['u', '"', '}'])

private def accepts (body : String) (p : CapturedEvent Int Small.Uuid → Bool) : Bool :=
  match parseBody Crates.small (fun _ _ => Small.nilUuid) body none Small.noon with
  | .ok batch => batch.events.any p
  | .error _ => false

private theorem exists_of_accepts {body : String} {p : CapturedEvent Int Small.Uuid → Bool} (h : accepts body p = true) :
    ∃ batch, parseBody Crates.small (fun _ _ => Small.nilUuid) body none Small.noon = .ok batch ∧ ∃ e ∈ batch.events, p e = true := by
  unfold accepts at h
  split at h
  · rename_i batch hbatch
    exact ⟨batch, hbatch, List.any_eq_true.mp h⟩
  · cases h

/-- Both get through. -/
theorem ahead_and_blank_accepted :
    (∃ batch, parseBody Crates.small (fun _ _ => Small.nilUuid) aheadBody none Small.noon = .ok batch ∧
      ∃ e ∈ batch.events, ¬ e.timestamp.ns ≤ Small.noon.ns + hours maxFutureHours) ∧
    ∃ batch, parseBody Crates.small (fun _ _ => Small.nilUuid) blankBody none Small.noon = .ok batch ∧
      ∃ e ∈ batch.events, isBlank e.distinctId = true := by
  constructor
  · have hahead : accepts aheadBody (fun e => Small.noon.ns + hours maxFutureHours < e.timestamp.ns) = true := by decide +kernel
    obtain ⟨batch, hbatch, e, he, hlate⟩ := exists_of_accepts hahead
    exact ⟨batch, hbatch, e, he, not_le.mpr (of_decide_eq_true hlate)⟩
  · have hblank : accepts blankBody (fun e => isBlank e.distinctId) = true := by decide +kernel
    exact exists_of_accepts hblank

theorem ahead_within_iff : ∃ batch, parseBody Crates.small (fun _ _ => Small.nilUuid) aheadBody none Small.noon = .ok batch ∧
    ((∀ e ∈ batch.events, e.Within Small.noon) ↔ ∀ obj ∈ sentEvents Crates.small aheadBody, Plain Crates.small obj) := by
  have hahead : accepts aheadBody (fun _ => true) = true := by decide +kernel
  obtain ⟨batch, hbatch, -⟩ := exists_of_accepts hahead
  exact ⟨batch, hbatch, parseBody_within_iff hbatch⟩

end body
end Hoglet.Capture
