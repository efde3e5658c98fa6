import ServerlessTaint.Value

/-!
# Calls of services

For each supported service and kind of object, the calls that matter to the analysis: the events that
a call raises, the permissions of which it needs one, the arguments that name its resource, and the
arguments against which filters of events are held. An argument has a name and a position, which is
`None` if it can only be given by name.
-/

namespace ServerlessTaint.Apis

def texts (items : List String) : Value := .list (items.map .str)

def arguments (items : List (String × String)) : Value := .list (items.map fun (n, p) => .map [(n, .str p)])

def call (events permissions : List String) : List (String × Value) :=
  [("events", texts events), ("permissions", texts permissions)]

def resources (items : List (String × String)) : List (String × Value) := [("resources", arguments items)]

/-- The arguments against which filters of events are held. -/
def filtered (items : List (String × String)) : List (String × Value) :=
  [("events_filtering", arguments items)]

/-- The objects of services whose calls do not matter. -/
def noCalls (kinds : List String) : Value := .map (kinds.map fun kind => (kind, .str "None"))

def storageClient : Value := .map [
  ("list_objects", .map (call ["None"] ["ListObjects", "List*", "*"] ++ resources [("Bucket", "None")])),
  ("list_objects_v2", .map (call ["None"] ["ListObjects", "List*", "*"] ++ resources [("Bucket", "None")])),
  ("put_object", .map (call ["ObjectCreated:*"] ["PutObject", "*"] ++
    resources [("Bucket", "None")] ++ filtered [("Key", "None")])),
  ("get_object", .map (call ["EventName1", "EventName2"] ["PermissionName1", "PermissionName2"])),
  ("upload_file", .map (call ["ObjectCreated:*"] ["PutObject", "*"] ++
    resources [("Bucket", "1")] ++ filtered [("Key", "2")]))
]

def storageResource : Value := .map [
  ("all", .map (call ["None"] ["ListBucket", "List*", "*"])),
  ("delete", .map (call ["None"] ["DeleteObject", "*"])),
  ("put_object", .map (call ["ObjectCreated:*"] ["PutObject", "*"] ++ filtered [("Key", "None")])),
  ("get_object", .map (call ["EventName1", "EventName2"] ["PermissionName1", "PermissionName2"])),
  ("upload_file", .map (call ["ObjectCreated:*"] ["PutObject", "*"] ++ filtered [("Key", "1")]))
]

def tableClient : Value := .map [
  ("put_item", .map (call ["stream"] ["PutItem", "*"] ++ resources [("TableName", "None")])),
  ("scan", .map (call ["None"] ["Scan", "*"] ++ resources [("TableName", "None")]))
]

def tableResource : Value := .map [
  ("put_item", .map (call ["stream"] ["PutItem", "*"])),
  ("scan", .map (call ["None"] ["Scan", "*"]))
]

def queueClient : Value := .map [
  ("send_message", .map (call ["MessageSent"] ["SendMessage", "*"] ++ resources [("QueueUrl", "None")]))
]

def queueResource : Value := .map [
  ("send_message", .map (call ["MessageSent"] ["SendMessage", "*"]))
]

def topicClient : Value := .map [
  ("publish", .map (call ["None"] ["Publish", "Publish*", "*"] ++ resources [("TopicArn", "None")]))
]

/-- The calls of all supported services. -/
def catalogue : Value := .map [
  ("s3", .map [("client_obj", storageClient), ("resource_obj", storageResource)]),
  ("dynamodb", .map [("client_obj", tableClient), ("resource_obj", tableResource)]),
  ("sqs", .map [("client_obj", queueClient), ("resource_obj", queueResource)]),
  ("sns", .map [("client_obj", topicClient)]),
  ("athena", noCalls ["client_obj"]),
  ("acm", noCalls ["client_obj"]),
  ("apigateway", noCalls ["client_obj"]),
  ("apigatewaymanagementapi", noCalls ["client_obj"]),
  ("batch", noCalls ["client_obj"]),
  ("cloudformation", noCalls ["client_obj", "resource_obj"]),
  ("cloudtrail", noCalls ["client_obj"]),
  ("cloudwatch", noCalls ["client_obj", "resource_obj"]),
  ("codebuild", noCalls ["client_obj"]),
  ("codepipeline", noCalls ["client_obj"]),
  ("cognito-idp", noCalls ["client_obj"]),
  ("comprehend", noCalls ["client_obj"]),
  ("ec2", noCalls ["client_obj", "resource_obj"]),
  ("ecs", noCalls ["client_obj"]),
  ("efs", noCalls ["client_obj"]),
  ("elb", noCalls ["client_obj"]),
  ("elbv2", noCalls ["client_obj"]),
  ("events", noCalls ["client_obj"]),
  ("firehose", noCalls ["client_obj"]),
  ("glue", noCalls ["client_obj"]),
  ("iam", noCalls ["client_obj", "resource_obj"]),
  ("iot", noCalls ["client_obj"]),
  ("iot-data", noCalls ["client_obj"]),
  ("kinesis", noCalls ["client_obj"]),
  ("kms", noCalls ["client_obj"]),
  ("lambda", noCalls ["client_obj"]),
  ("lex-models", noCalls ["client_obj"]),
  ("lex-runtime", noCalls ["client_obj"]),
  ("lightsail", noCalls ["client_obj"]),
  ("logs", noCalls ["client_obj"]),
  ("mediaconvert", noCalls ["client_obj"]),
  ("polly", noCalls ["client_obj"]),
  ("quicksight", noCalls ["client_obj"]),
  ("rds", noCalls ["client_obj"]),
  ("rds-data", noCalls ["client_obj"]),
  ("rekognition", noCalls ["client_obj"]),
  ("resourcegroupstaggingapi", noCalls ["client_obj"]),
  ("route53", noCalls ["client_obj"]),
  ("sagemaker", noCalls ["client_obj"]),
  ("secretsmanager", noCalls ["client_obj"]),
  ("ses", noCalls ["client_obj"]),
  ("ssm", noCalls ["client_obj"]),
  ("stepfunctions", noCalls ["client_obj"]),
  ("sts", noCalls ["client_obj"]),
  ("support", noCalls ["client_obj"]),
  ("textract", noCalls ["client_obj"])
]

end ServerlessTaint.Apis
