import PureplayIngest.Migrations.Statements
import PureplayIngest.Shared.Domain.ClubCode
import PureplayIngest.Shared.Domain.Shot

/-!
The three migration files, statement by statement.
-/

namespace PureplayIngest.Migrations

open Shared.Domain

/-- `001_init.sql` -/
def initFile : List Statement :=
  [.createType "vendor_enum"
      ["trackpro", "swingmetric", "proswing"],
    .createType "club_code_enum"
      ["DR", "3W", "4W", "5W", "7W", "2H", "3H", "4H", "5H", "1I", "2I", "3I", "4I", "5I", "6I",
        "7I", "8I", "9I", "PW", "GW", "AW", "SW", "LW", "PT", "UNKNOWN"],
    .createTable "shots"
      [.builtin "canonical_shot_id" "VARCHAR(26)", .enum "vendor" "vendor_enum",
        .builtin "vendor_shot_id" "VARCHAR(255)", .builtin "idempotency_key" "VARCHAR(600)",
        .builtin "vendor_user_id" "VARCHAR(255)", .builtin "canonical_user_id" "VARCHAR(26)",
        .builtin "captured_at_utc" "TIMESTAMPTZ",
        .builtin "captured_at_tz_offset_min" "SMALLINT",
        .builtin "received_at_utc" "TIMESTAMPTZ", .enum "club_code" "club_code_enum",
        .builtin "club_raw" "VARCHAR(64)", .builtin "ball_speed_mps" "DOUBLE PRECISION",
        .builtin "club_head_speed_mps" "DOUBLE PRECISION",
        .builtin "launch_angle_deg" "DOUBLE PRECISION", .builtin "spin_rpm" "INTEGER",
        .builtin "carry_m" "DOUBLE PRECISION", .builtin "total_m" "DOUBLE PRECISION",
        .builtin "lateral_m" "DOUBLE PRECISION", .builtin "device_id" "VARCHAR(255)",
        .builtin "session_id" "VARCHAR(255)", .builtin "content_hash" "CHAR(64)",
        .builtin "raw_payload" "JSONB", .builtin "schema_version" "SMALLINT",
        .builtin "parser_version" "VARCHAR(20)",
        .foreignKey "duplicate_of" "VARCHAR(26)" "shots" "canonical_shot_id",
        .builtin "created_at" "TIMESTAMPTZ"],
    .createIndex false "shots_vendor_idempotency_key"
      (.mk "shots" [.asc "vendor", .asc "idempotency_key"] true none),
    .createIndex false "shots_vendor_user_id_content_hash_captured"
      (.mk "shots" [.asc "vendor_user_id", .asc "content_hash", .asc "captured_at_utc"]
        false none),
    .createIndex false "shots_canonical_user_id_captured"
      (.mk "shots" [.asc "canonical_user_id", .desc "captured_at_utc"]
        false (some (.isNotNull "canonical_user_id"))),
    .createIndex false "shots_canonical_user_id_club_captured"
      (.mk "shots" [.asc "canonical_user_id", .asc "club_code", .desc "captured_at_utc"]
        false (some (.isNotNull "canonical_user_id"))),
    .createIndex false "shots_vendor_vendor_user_id_captured"
      (.mk "shots" [.asc "vendor", .asc "vendor_user_id", .desc "captured_at_utc"] false none),
    .createIndex false "shots_vendor_user_id_club_captured"
      (.mk "shots" [.asc "vendor_user_id", .asc "club_code", .desc "captured_at_utc"] false none),
    .createTable "user_identities"
      [.builtin "id" "BIGSERIAL", .enum "vendor" "vendor_enum",
        .builtin "vendor_user_id" "VARCHAR(255)", .builtin "canonical_user_id" "VARCHAR(26)",
        .builtin "created_at" "TIMESTAMPTZ", .builtin "updated_at" "TIMESTAMPTZ"],
    .createIndex false "user_identities_canonical_user_id"
      (.mk "user_identities" [.asc "canonical_user_id"] false none),
    .createTable "identity_merges"
      [.builtin "id" "BIGSERIAL", .builtin "from_canonical_user_id" "VARCHAR(26)",
        .builtin "to_canonical_user_id" "VARCHAR(26)", .builtin "merged_at" "TIMESTAMPTZ",
        .builtin "merged_by" "VARCHAR(255)"],
    .createTable "ingestion_failures"
      [.builtin "id" "BIGSERIAL", .enum "vendor" "vendor_enum",
        .builtin "received_at_utc" "TIMESTAMPTZ", .builtin "raw_body" "TEXT",
        .builtin "http_status" "SMALLINT", .builtin "error_code" "VARCHAR(64)",
        .builtin "error_detail" "JSONB", .builtin "correlation_id" "VARCHAR(64)",
        .builtin "created_at" "TIMESTAMPTZ"],
    .createIndex false "ingestion_failures_vendor_received"
      (.mk "ingestion_failures" [.asc "vendor", .desc "received_at_utc"] false none),
    .createTable "outbox_events"
      [.builtin "id" "BIGSERIAL", .builtin "event_type" "VARCHAR(64)",
        .builtin "payload" "JSONB", .builtin "created_at" "TIMESTAMPTZ"],
    .createIndex false "outbox_events_created_at"
      (.mk "outbox_events" [.asc "created_at"] false none),
    .createTable "audit_log"
      [.builtin "id" "BIGSERIAL", .builtin "action" "VARCHAR(64)",
        .builtin "actor" "VARCHAR(255)", .builtin "canonical_user_id" "VARCHAR(26)",
        .enum "vendor" "vendor_enum", .builtin "vendor_user_id" "VARCHAR(255)",
        .builtin "metadata" "JSONB", .builtin "created_at" "TIMESTAMPTZ"],
    .createIndex false "audit_log_canonical_user_id_created"
      (.mk "audit_log" [.asc "canonical_user_id", .desc "created_at"]
        false (some (.isNotNull "canonical_user_id"))),
    .createIndex false "audit_log_action_created"
      (.mk "audit_log" [.asc "action", .desc "created_at"] false none)]

/-- The rows of `club_codes` that `002_club_data.sql` inserts. -/
def clubCodeSeed : List ClubCodeRow :=
  [⟨"DR", "Driver", .wood, some 7, some 12, false⟩,
    ⟨"3W", "3 Wood", .wood, some 13, some 17, false⟩,
    ⟨"4W", "4 Wood", .wood, some 15, some 19, false⟩,
    ⟨"5W", "5 Wood", .wood, some 18, some 22, false⟩,
    ⟨"7W", "7 Wood", .wood, some 20, some 24, false⟩,
    ⟨"2H", "2 Hybrid", .hybrid, some 17, some 20, false⟩,
    ⟨"3H", "3 Hybrid", .hybrid, some 19, some 22, false⟩,
    ⟨"4H", "4 Hybrid", .hybrid, some 22, some 25, false⟩,
    ⟨"5H", "5 Hybrid", .hybrid, some 24, some 28, false⟩,
    ⟨"1I", "1 Iron", .iron, some 15, some 18, false⟩,
    ⟨"2I", "2 Iron", .iron, some 17, some 21, false⟩,
    ⟨"3I", "3 Iron", .iron, some 20, some 23, false⟩,
    ⟨"4I", "4 Iron", .iron, some 23, some 26, false⟩,
    ⟨"5I", "5 Iron", .iron, some 25, some 29, false⟩,
    ⟨"6I", "6 Iron", .iron, some 29, some 33, false⟩,
    ⟨"7I", "7 Iron", .iron, some 33, some 37, false⟩,
    ⟨"8I", "8 Iron", .iron, some 37, some 41, false⟩,
    ⟨"9I", "9 Iron", .iron, some 41, some 45, false⟩,
    ⟨"PW", "Pitching Wedge", .wedge, some 43, some 48, false⟩,
    ⟨"GW", "Gap Wedge", .wedge, some 49, some 53, false⟩,
    ⟨"AW", "Approach Wedge", .wedge, some 49, some 53, false⟩,
    ⟨"SW", "Sand Wedge", .wedge, some 54, some 58, false⟩,
    ⟨"LW", "Lob Wedge", .wedge, some 59, some 64, false⟩,
    ⟨"PT", "Putter", .putter, some 2, some 6, true⟩,
    ⟨"UNKNOWN", "Unknown", .unknown, none, none, false⟩]

def seeds (code : String) (aliases : List String) : List ClubAliasRow :=
  aliases.map fun s => ⟨s, code, .seed⟩

def irons (aliases : List String) : List ClubAliasRow :=
  List.zipWith (fun s code => ⟨s, code, .seed⟩) aliases
    ["1I", "2I", "3I", "4I", "5I", "6I", "7I", "8I", "9I"]

/-- The rows of `club_aliases` that `002_club_data.sql` inserts. -/
def clubAliasSeed : List ClubAliasRow :=
    seeds "DR" ["driver", "dr", "1w", "1 wood", "1wood"] ++
    seeds "3W" ["3w", "3 wood", "3wood", "3-wood", "fairway 3"] ++
    seeds "4W" ["4w", "4 wood", "4wood", "4-wood"] ++
    seeds "5W" ["5w", "5 wood", "5wood", "5-wood", "fairway 5"] ++
    seeds "7W" ["7w", "7 wood", "7wood", "7-wood"] ++
    seeds "2H" ["2h", "2 hybrid", "2hybrid", "2-hybrid", "hybrid 2"] ++
    seeds "3H" ["3h", "3 hybrid", "3hybrid", "3-hybrid", "hybrid 3"] ++
    seeds "4H" ["4h", "4 hybrid", "4hybrid", "4-hybrid", "hybrid 4"] ++
    seeds "5H" ["5h", "5 hybrid", "5hybrid", "5-hybrid", "hybrid 5"] ++
    irons ["1i", "2i", "3i", "4i", "5i", "6i", "7i", "8i", "9i"] ++
    irons ["i1", "i2", "i3", "i4", "i5", "i6", "i7", "i8", "i9"] ++
    irons ["1 iron", "2 iron", "3 iron", "4 iron", "5 iron", "6 iron", "7 iron",
      "8 iron", "9 iron"] ++
    irons ["1iron", "2iron", "3iron", "4iron", "5iron", "6iron", "7iron", "8iron", "9iron"] ++
    irons ["1-iron", "2-iron", "3-iron", "4-iron", "5-iron", "6-iron", "7-iron",
      "8-iron", "9-iron"] ++
    irons ["iron 1", "iron 2", "iron 3", "iron 4", "iron 5", "iron 6", "iron 7",
      "iron 8", "iron 9"] ++
    seeds "PW" ["pw", "pitching wedge", "pitching-wedge", "pitchingwedge", "p wedge"] ++
    seeds "GW" ["gw", "gap wedge", "gap-wedge", "gapwedge"] ++
    seeds "AW" ["aw", "approach wedge", "approach-wedge", "approachwedge", "a wedge"] ++
    seeds "SW" ["sw", "sand wedge", "sand-wedge", "sandwedge"] ++
    seeds "LW" ["lw", "lob wedge", "lob-wedge", "lobwedge"] ++
    seeds "PT" ["pt", "putter", "putt"]

/-- `002_club_data.sql` -/
def clubDataFile : List Statement :=
  [.createTable "club_codes"
      [.builtin "club_code" "VARCHAR(8)", .builtin "display_name" "VARCHAR(64)",
        .builtin "category" "VARCHAR(16)", .builtin "loft_deg_min" "NUMERIC(4,1)",
        .builtin "loft_deg_max" "NUMERIC(4,1)",
        .builtin "excluded_from_distance_stats" "BOOLEAN"],
    .createTable "club_aliases"
      [.builtin "alias" "VARCHAR(128)",
        .foreignKey "club_code" "VARCHAR(8)" "club_codes" "club_code",
        .builtin "source" "VARCHAR(16)", .builtin "confirmed_by" "VARCHAR(255)",
        .builtin "confirmed_at_utc" "TIMESTAMPTZ", .builtin "created_at_utc" "TIMESTAMPTZ"],
    .createIndex false "club_aliases_club_code"
      (.mk "club_aliases" [.asc "club_code"] false none),
    .createTable "unknown_club_aliases"
      [.builtin "alias" "VARCHAR(128)", .builtin "first_seen_at_utc" "TIMESTAMPTZ",
        .builtin "last_seen_at_utc" "TIMESTAMPTZ", .builtin "seen_count" "INTEGER"],
    .insertClubCodes clubCodeSeed,
    .insertClubAliases clubAliasSeed]

/-- `003_identity_perf.sql` -/
def identityPerfFile : List Statement :=
  [.createIndex false "shots_vendor_user_id_unlinked"
      (.mk "shots" [.asc "vendor", .asc "vendor_user_id"]
        false (some (.isNull "canonical_user_id"))),
    .dropIndex true "user_identities_canonical_user_id",
    .createIndex true "user_identities_canonical_user_id_created"
      (.mk "user_identities" [.asc "canonical_user_id", .asc "created_at"] false none)]

/-- What `runMigrations` executes, one statement after the other. -/
def migrations : List Statement := initFile ++ clubDataFile ++ identityPerfFile

/-- The enumerations of the database, and the table of club codes, list what the
code does. -/
theorem enums_agree :
    .createType "vendor_enum" (validVendors.map Vendor.toString) ∈ migrations ∧
      .createType "club_code_enum" (validClubCodes.map ClubCode.toString) ∈ migrations ∧
      clubCodeSeed.map (·.club_code) = validClubCodes.map ClubCode.toString := by
  refine ⟨?_, ?_, rfl⟩
  · exact List.mem_cons_self
  · exact List.mem_cons_of_mem _ List.mem_cons_self

end PureplayIngest.Migrations
