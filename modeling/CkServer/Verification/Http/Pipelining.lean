import CkServer.Verification.Http.Grammar
import CkServer.Verification.Http.Incremental

/-! # Pipelined requests

`onMessage` parses once and does not look at its buffer again, so it dispatches at most one
request. A chunk that completes two leaves the second one in the buffer. -/

namespace CkServer

open Text Lines HttpContext HttpSession

/-- The bytes of requests sent one after another. -/
def pipeline (reqs : List RequestText) : List UInt8 := reqs.flatMap RequestText.render

/-- The requests of a pipeline that are whole in its first `n` bytes. -/
def completeIn : List RequestText → ℕ → List RequestText
  | [], _ => []
  | r :: rs, n => if r.render.length ≤ n then r :: completeIn rs (n - r.render.length) else []

/-- After each call of `onMessage` the requests dispatched are all those received whole. -/
def NoneWaiting (reqs : List RequestText) (ds : List Delivery) : Prop :=
  ∀ before, before <+: ds → ∃ s, HttpSession.run before = some s ∧
    s.dispatched.map HttpRequest.eraseTime =
      (completeIn reqs (received before).length).map RequestText.request

/-- No chunk completes more than one request. -/
def OneAtATime (reqs : List RequestText) (ds : List Delivery) : Prop :=
  ∀ before d, before ++ [d] <+: ds →
    (completeIn reqs (received (before ++ [d])).length).length ≤
      (completeIn reqs (received before).length).length + 1

/-! ## The requests of an initial part of a pipeline -/

/-- The records of an initial part of a pipeline are its whole requests. -/
theorem requests_of_initial {reqs : List RequestText} {bs : List UInt8}
    (h : bs <+: pipeline reqs) :
    requests bs = (completeIn reqs bs.length).map RequestText.request := by
  induction reqs generalizing bs with
  | nil =>
      obtain rfl : bs = [] := List.prefix_nil.mp h
      exact parser.records_of_not_finished
        (by rw [parser.read_of_none (splitLine?_eq_none_iff.mpr unbroken_nil)]; decide)
  | cons r rs ih =>
      rw [pipeline, List.flatMap_cons] at h
      by_cases hle : r.render.length ≤ bs.length
      · obtain ⟨tail, rfl⟩ :=
          List.prefix_of_prefix_length_le (List.prefix_append r.render _) h hle
        have htail : tail <+: pipeline rs := (List.prefix_append_right_inj _).mp h
        have hfinished : (parser.read {} (r.render ++ tail)).stop = .finished := by
          rw [read_render]
        have hlen : (r.render ++ tail).length - r.render.length = tail.length := by simp
        rw [requests, parser.records_of_finished hfinished, read_render, completeIn, if_pos hle,
          hlen, List.map_cons, ← ih htail]
        rfl
      · have hpre : bs <+: r.render :=
          List.prefix_of_prefix_length_le h (List.prefix_append r.render _) (by omega)
        rw [completeIn, if_neg hle, requests,
          parser.records_of_not_finished (by rw [starved_of_lt hpre (by omega)]; decide)]
        rfl

/-! ## Requests left waiting -/

theorem received_initial {before ds : List Delivery} (h : before <+: ds) :
    received before <+: received ds := by
  obtain ⟨after, rfl⟩ := h
  exact ⟨received after, by simp [received]⟩

/-- Whether requests are left waiting, said of the abstract session. -/
theorem noneWaiting_iff_emitted {reqs : List RequestText} {ds : List Delivery}
    (h : received ds <+: pipeline reqs) :
    NoneWaiting reqs ds ↔
      ∀ before, before <+: ds → (abstract before).emitted = requests (received before) := by
  have hwhole {before : List Delivery} (hpre : before <+: ds) :
      requests (received before) =
        (completeIn reqs (received before).length).map RequestText.request :=
    requests_of_initial ((received_initial hpre).trans h)
  constructor
  · intro hnone before hpre
    obtain ⟨s, hrun, hall⟩ := hnone before hpre
    rw [← (implements_of_run hrun).dispatched, hall, hwhole hpre]
  · intro hemitted before hpre
    obtain ⟨s, hrun, himp⟩ := run_implements before
    exact ⟨s, hrun, by rw [himp.dispatched, hemitted before hpre, hwhole hpre]⟩

/-- No request is ever left waiting exactly when no chunk completes two. -/
theorem noneWaiting_iff_oneAtATime {reqs : List RequestText} {ds : List Delivery}
    (h : received ds <+: pipeline reqs) : NoneWaiting reqs ds ↔ OneAtATime reqs ds := by
  rw [noneWaiting_iff_emitted h]
  have hcount {before : List Delivery} (hpre : before <+: ds) :
      (completeIn reqs (received before).length).length = (requests (received before)).length := by
    rw [requests_of_initial ((received_initial hpre).trans h), List.length_map]
  have hpieces := parser.emitted_eq_records_iff {} HttpContext.request_ (ds.map Delivery.data)
  constructor
  · intro hemitted before d hpre
    rw [hcount hpre, hcount ((List.prefix_append before [d]).trans hpre), received_eq_flatten,
      received_eq_flatten, List.map_append, List.map_singleton]
    refine hpieces.mp ?_ _ _ (by simpa using hpre.map Delivery.data)
    intro pieces hmap
    obtain ⟨before', hpre', rfl⟩ := List.prefix_map_iff.mp hmap
    rw [← received_eq_flatten]
    exact hemitted before' hpre'
  · intro hone before hpre
    rw [received_eq_flatten]
    refine hpieces.mpr ?_ _ (hpre.map Delivery.data)
    intro pieces piece hmap
    obtain ⟨whole, hwhole, heq⟩ := List.prefix_map_iff.mp hmap
    obtain ⟨before', last, rfl, rfl, hlast⟩ := List.append_eq_map_iff.mp heq
    obtain ⟨d, rfl, rfl⟩ := List.map_eq_singleton_iff.mp hlast
    have hle := hone before' d hwhole
    rw [hcount hwhole, hcount ((List.prefix_append before' [d]).trans hwhole)] at hle
    simpa only [requests, received_eq_flatten, List.map_append, List.map_singleton] using hle

/-- `GET / HTTP/1.1` without headers. The server keeps the connection. -/
def getRootText : RequestText := ⟨getRoot, [], by decide, by simp⟩

/-- A server whose callback leaves the response as it was prepared. -/
def keepAliveServer : HttpServer := ⟨fun _ resp => resp⟩

/-- The request in a chunk of its own. -/
def singleDelivery : Delivery := { data := getRootText.render, server := keepAliveServer }

theorem noneWaiting_iff_oneAtATime_singleDeliveries :
    NoneWaiting [getRootText, getRootText] [singleDelivery, singleDelivery] ↔
      OneAtATime [getRootText, getRootText] [singleDelivery, singleDelivery] :=
  noneWaiting_iff_oneAtATime (by decide)

/-- The request twice in one chunk. -/
def doubleDelivery : Delivery :=
  { data := pipeline [getRootText, getRootText], server := keepAliveServer }

theorem not_noneWaiting_doubleDelivery :
    received [doubleDelivery] = pipeline [getRootText, getRootText] ∧
      ¬ NoneWaiting [getRootText, getRootText] [doubleDelivery] := by
  refine ⟨by decide, ?_⟩
  intro hnone
  obtain ⟨s, hrun, hall⟩ := hnone _ List.prefix_rfl
  have hone : (abstract [doubleDelivery]).emitted.length ≤ 1 :=
    parser.length_emitted_session {} HttpContext.request_ [doubleDelivery.data]
  have htwo :
      (completeIn [getRootText, getRootText] (received [doubleDelivery]).length).length = 2 := by
    decide
  rw [(implements_of_run hrun).dispatched] at hall
  rw [hall, List.length_map, htwo] at hone
  omega

end CkServer
