/-!
# Repositories laid out as packages

The repositories of the supplied data set whose modules import each other by their path from the
top-level folder.
-/

namespace ServerlessTaint

/-- The names of the repositories of the data set that are analysed as packages. -/
def packageRepositories : List String := [
  "002AA_covid-projections_covid-data-model", "008AA_epsagon_epsagon-python",
  "013AA_base2Services_shelvery-aws-backups", "022AA_mozilla_subhub", "025AA_HackRU_lcs",
  "026AA_antessio_dynamoplus", "028AA_schmidtbri_lambda-ml-model-deployment",
  "029AA_zhammer_playlist-souffle", "031AA_brazil-data-cube_cube-builder-aws",
  "032AA_paulharte_autobrew", "036AA_keithrozario_Gov-TLS-Audit", "040AA_caffeinetv_snappy",
  "047AA_harveyrendell_strava-reporter", "053AA_demidov91_belarusbank",
  "054AA_ohyeahjoe_apcompsciproject", "055AA_revmischa_sls-flask-pre", "056AA_mcliff1_SignalBot",
  "061AA_vincentclaes_serverless_crypto_analysis", "063AA_halprin_retrospective",
  "070AA_Gilbertly_kickoffai-sls-dataml", "073AA_the-deep_serverless",
  "077AA_claudijd_ssh_observatory", "094AA_hprutvisagar_aws-pricing-tools",
  "099AA_zhammer_adventure-anywhere", "101AA_mruston0_albumshuffler",
  "104AA_knowit_Dataplattform-old", "115AA_dthompson989_rancor-py-beta",
  "117AA_KevinJMcGarry_cloudwatch_notifier", "128AA_carlosonunez_tripit-apis",
  "129AA_nicolaszein_auth", "140AA_mawinkler_c1-app-sec-insekurestore", "144AA_phouse512_piper"]

end ServerlessTaint
